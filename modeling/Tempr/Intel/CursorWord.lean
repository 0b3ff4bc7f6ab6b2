import Tempr.Intel.LexerRounds

/-!
# The word at the cursor

What is read back from the cursor, as functions of the text before it: the word
that is typed, an open quote before it, and the qualifier. No slice on the way
panics. From it comes when the word in an open quoted name is found.
-/

namespace Tempr.Intel

open Tempr.Editor (ByteRange Rope)
open Tempr.Editor.Rope (lenBytes)

/-! ## Quotes -/

/-- Doubled quotes do not change the parity of a count of quotes. -/
theorem countQuotes_mod_two (text : Text) :
    countQuotes text % 2 = text.count '"' % 2 := by
  induction text using countQuotes.induct with
  | case1 text ih =>
    rw [countQuotes, ih, List.count_cons_self, List.count_cons_self]
    omega
  | case2 text hpair ih =>
    rw [countQuotes, List.count_cons_self]
    · omega
    · exact hpair
  | case3 c text hpair hquote ih =>
    rw [countQuotes, ih, List.count_cons_of_ne hquote]
    · exact hpair
    · exact hquote
  | case4 => rfl

theorem lenBytes_reverse (text : Text) : lenBytes text.reverse = lenBytes text := by
  induction text with
  | nil => rfl
  | cons c text ih =>
    rw [List.reverse_cons, Rope.lenBytes_append, ih, Rope.lenBytes_cons,
      Rope.lenBytes_cons, Rope.lenBytes_nil]
    omega

/-- The body of the quoted name that the text, listed from its end, ends with,
and the text before the name. -/
def quotedOf (body : Text) : List Char → Option (Text × Text)
  | '"' :: '"' :: before => quotedOf ('"' :: '"' :: body) before
  | '"' :: before => some (unescapeQuotes body, before.reverse)
  | c :: before => quotedOf (c :: body) before
  | [] => none

theorem quotedBack_eq (body : Text) (chars : List Char) :
    quotedBack body chars =
      (quotedOf body chars).map fun p => (p.1, lenBytes p.2) := by
  induction body, chars using quotedOf.induct with
  | case1 body before ih => rw [quotedBack, quotedOf, ih]
  | case2 body before hpair =>
    rw [quotedBack, quotedOf, Option.map_some, lenBytes_reverse]
    · exact hpair
    · exact hpair
  | case3 body c before hpair hquote ih =>
    rw [quotedBack, quotedOf, ih]
    · exact hpair
    · exact hquote
    · exact hpair
    · exact hquote
  | case4 body => rfl

theorem quotedOf_suffix {body part front : Text} {chars : List Char}
    (h : quotedOf body chars = some (part, front)) :
    front.reverse <:+ chars := by
  induction body, chars using quotedOf.induct with
  | case1 body before ih =>
    rw [quotedOf] at h
    exact (ih h).trans ⟨['"', '"'], rfl⟩
  | case2 body before hpair =>
    rw [quotedOf, Option.some.injEq, Prod.mk.injEq] at h
    · obtain ⟨-, rfl⟩ := h
      rw [List.reverse_reverse]
      exact List.suffix_cons '"' before
    · exact hpair
  | case3 body c before hpair hquote ih =>
    rw [quotedOf] at h
    · exact (ih h).trans (List.suffix_cons c before)
    · exact hpair
    · exact hquote
  | case4 body => cases h

section Cursor

variable [CharTables]

/-! ## The qualifier -/

/-- The identifier at the end of a text, and the text before it. -/
def identifierOf (text : Text) : Option (Text × Text) :=
  let text := trimEnd text
  if text.getLast? = some '"' then quotedOf [] text.dropLast.reverse
  else
    let ident := text.rtakeWhile isIdentChar
    if ident.head?.any isIdentStart then
      some (ident, text.rdropWhile isIdentChar)
    else none

theorem identifierBack_eq (text : Text) :
    identifierBack text =
      (identifierOf text).map fun p => (p.1, lenBytes p.2) := by
  rw [identifierBack, identifierOf]
  by_cases hquote : (trimEnd text).getLast? = some '"'
  · simp only [if_pos hquote, quotedBack_eq]
  · simp only [if_neg hquote]
    split
    · rfl
    · rfl

theorem trimEnd_isPrefix (text : Text) : trimEnd text <+: text :=
  List.rdropWhile_prefix _ _

theorem identifierOf_isPrefix {text part front : Text}
    (h : identifierOf text = some (part, front)) : front <+: text := by
  refine List.IsPrefix.trans ?_ (trimEnd_isPrefix text)
  simp only [identifierOf] at h
  split at h
  · have hsuffix := quotedOf_suffix h
    rw [← List.reverse_prefix, List.reverse_reverse,
      List.reverse_reverse] at hsuffix
    exact hsuffix.trans (List.dropLast_prefix _)
  · split at h
    · cases h
      exact List.rdropWhile_prefix _ _
    · cases h

/-- At most `n` parts of the qualifier at the end of a text, and the text
before it. -/
def qualifierOf : ℕ → Text → List Text × Text
  | 0, text => ([], text)
  | n + 1, text =>
      if (trimEnd text).getLast? ≠ some '.' then ([], text)
      else
        match identifierOf (trimEnd text).dropLast with
        | none => ([], text)
        | some (part, front) =>
            ((qualifierOf n front).1 ++ [part], (qualifierOf n front).2)

theorem qualifierOf_of_not_dot {text : Text} (n : ℕ)
    (hdot : (trimEnd text).getLast? ≠ some '.') :
    qualifierOf (n + 1) text = ([], text) := by
  rw [qualifierOf, if_pos hdot]

theorem qualifierOf_of_none {text : Text} (n : ℕ)
    (h : identifierOf (trimEnd text).dropLast = none) :
    qualifierOf (n + 1) text = ([], text) := by
  rw [qualifierOf, h, ite_self]

theorem qualifierOf_of_some {text part front : Text} (n : ℕ)
    (hdot : (trimEnd text).getLast? = some '.')
    (h : identifierOf (trimEnd text).dropLast = some (part, front)) :
    qualifierOf (n + 1) text =
      ((qualifierOf n front).1 ++ [part], (qualifierOf n front).2) := by
  rw [qualifierOf, if_neg (fun hne => hne hdot), h]

omit [CharTables] in
theorem sliceTo_of_prefix {front text : Text} (h : front <+: text) :
    sliceTo text (lenBytes front) = some front := by
  obtain ⟨rest, rfl⟩ := h
  exact sliceTo_append front rest

omit [CharTables] in
/-- The text without a dot at its end. -/
theorem sliceTo_dropLast {text before : Text} (h : before <+: text)
    (hdot : before.getLast? = some '.') :
    sliceTo text (lenBytes before - 1) = some before.dropLast := by
  obtain ⟨init, rfl⟩ := List.getLast?_eq_some_iff.mp hdot
  have hlen : lenBytes (init ++ ['.']) - 1 = lenBytes init := by
    have hsize : ('.' : Char).utf8Size = 1 := by decide
    simp [hsize]
  rw [hlen, List.dropLast_concat]
  exact sliceTo_of_prefix ((List.prefix_append init ['.']).trans h)

theorem qualifierParts_eq (text : Text) (n : ℕ) {front : Text}
    (hfront : front <+: text) :
    qualifierParts text n (lenBytes front) =
      some ((qualifierOf n front).1, lenBytes (qualifierOf n front).2) := by
  induction n generalizing front with
  | zero => rfl
  | succ n ih =>
    rw [qualifierParts, sliceTo_of_prefix hfront, qualifierOf]
    by_cases hdot : (trimEnd front).getLast? = some '.'
    · have hslice := sliceTo_dropLast ((trimEnd_isPrefix front).trans hfront) hdot
      simp only [Option.bind_eq_bind, Option.bind_some, hdot, ne_eq,
        not_true_eq_false, if_false, hslice, identifierBack_eq]
      cases hident : identifierOf (trimEnd front).dropLast with
      | none => rfl
      | some p =>
        obtain ⟨part, before⟩ := p
        have hbefore : before <+: text :=
          ((identifierOf_isPrefix hident).trans (List.dropLast_prefix _)).trans
            ((trimEnd_isPrefix front).trans hfront)
        simp only [Option.map_some, ih hbefore, Option.bind_some]
        rfl
    · simp only [Option.bind_eq_bind, Option.bind_some, if_pos hdot]
      rfl

/-! ## The word -/

/-- The text before the word that is typed. An open quote belongs to the
word. -/
def wordFront (text : Text) : Text :=
  let front := text.rdropWhile isIdentChar
  if front.getLast? = some '"' ∧ front.count '"' % 2 = 1 then front.dropLast
  else front

/-- What is expected after a text. -/
def contextAfter (front : Text) : CompletionContext :=
  if (qualifierOf 3 front).1 = [] then classify (tokensOf front)
  else .qualifier (qualifierOf 3 front).1

theorem wordFront_isPrefix (text : Text) :
    wordFront text <+: text.rdropWhile isIdentChar := by
  simp only [wordFront]
  split
  · exact List.dropLast_prefix _
  · exact List.prefix_rfl

theorem openQuoteBefore_eq (text : Text) :
    openQuoteBefore text (wordStart text) =
      some (if (text.rdropWhile isIdentChar).getLast? = some '"' ∧
          (text.rdropWhile isIdentChar).count '"' % 2 = 1 then
        some (wordStart text - 1) else none) := by
  rw [openQuoteBefore, wordStart,
    sliceTo_of_prefix (List.rdropWhile_prefix isIdentChar text)]
  by_cases hquote : (text.rdropWhile isIdentChar).getLast? = some '"'
  · by_cases hodd : (text.rdropWhile isIdentChar).count '"' % 2 = 1
    · simp [hquote, hodd, countQuotes_mod_two]
    · simp [hquote, hodd, countQuotes_mod_two]
  · simp [hquote]

/-- Nothing panics on the way from the text to its context. -/
theorem cursorContext_eq (text : Text) (base : ℕ) :
    cursorContext text base =
      some ⟨contextAfter (wordFront text),
        ⟨base + lenBytes (wordFront text), base + lenBytes text⟩,
        text.rtakeWhile isIdentChar⟩ := by
  have hprefix : wordFront text <+: text :=
    (wordFront_isPrefix text).trans (List.rdropWhile_prefix isIdentChar text)
  have htyped : sliceFrom text (wordStart text) =
      some (text.rtakeWhile isIdentChar) := by
    have h := sliceFrom_append (text.rdropWhile isIdentChar)
      (text.rtakeWhile isIdentChar)
    rwa [List.rdropWhile_append_rtakeWhile] at h
  -- with an open quote the word starts one byte earlier than what is typed
  have hstarts : ∃ quote, openQuoteBefore text (wordStart text) = some quote ∧
      quote.getD (wordStart text) = lenBytes (wordFront text) ∧
      (quote.map (· + 1)).getD (wordStart text) = wordStart text := by
    refine ⟨_, openQuoteBefore_eq text, ?_⟩
    rw [wordFront]
    by_cases hopen : (text.rdropWhile isIdentChar).getLast? = some '"' ∧
        (text.rdropWhile isIdentChar).count '"' % 2 = 1
    · obtain ⟨init, hinit⟩ := List.getLast?_eq_some_iff.mp hopen.1
      have hsize : ('"' : Char).utf8Size = 1 := by decide
      have hlen : wordStart text = lenBytes init + 1 := by
        rw [wordStart, hinit]
        simp [hsize]
      rw [if_pos hopen, if_pos hopen, hlen, hinit, List.dropLast_concat]
      simp
    · simp only [if_neg hopen, wordStart]
      simp
  obtain ⟨quote, hquote, hstart, htypedStart⟩ := hstarts
  rw [cursorContext, hquote]
  simp only [Option.bind_eq_bind, Option.bind_some, hstart, htypedStart, htyped,
    qualifierBefore, qualifierParts_eq text 3 hprefix,
    sliceTo_of_prefix hprefix, tokenize_eq, contextAfter]
  by_cases hparts : (qualifierOf 3 (wordFront text)).1 = []
  · simp [hparts]
  · simp [hparts]

/-! ## The word in an open quoted name -/

omit [CharTables] in
/-- What is read back stops at the last character that does not belong to it. -/
theorem rdropWhile_append_stop {p : Char → Bool} {c : Char} (hc : ¬ p c)
    (a b : Text) :
    (a ++ c :: b).rdropWhile p = a ++ c :: b.rdropWhile p := by
  have hrest : (c :: a.reverse).dropWhile p = c :: a.reverse :=
    List.dropWhile_cons_of_neg hc
  simp only [List.rdropWhile, List.reverse_append, List.reverse_cons,
    List.append_assoc, List.singleton_append, List.dropWhile_append, hrest]
  by_cases hb : (b.reverse.dropWhile p).isEmpty
  · rw [if_pos hb, List.isEmpty_iff.mp hb]
    simp
  · rw [if_neg hb]
    simp

omit [CharTables] in
theorem rtakeWhile_append_stop {p : Char → Bool} {c : Char} (hc : ¬ p c)
    (a b : Text) : (a ++ c :: b).rtakeWhile p = b.rtakeWhile p := by
  have h := List.rdropWhile_append_rtakeWhile (p := p) (l := a ++ c :: b)
  rw [rdropWhile_append_stop hc, List.append_assoc, List.cons_append] at h
  have hb := List.rdropWhile_append_rtakeWhile (p := p) (l := b)
  rw [List.append_cancel_left_eq, List.cons.injEq] at h
  exact List.append_cancel_left (h.2.trans hb.symm)

theorem not_isIdentChar_of_ascii {c : Char} (hc : c.toNat < 128)
    (hother : (c.isAlpha || c.isDigit || decide (c = '_' ∨ c = '$')) = false) :
    ¬ isIdentChar c := by
  rw [isIdentChar, CharTables.isAlphabetic_ascii c hc,
    CharTables.isNumeric_ascii c hc, hother]
  exact Bool.false_ne_true

theorem not_isIdentChar_quote : ¬ isIdentChar '"' :=
  not_isIdentChar_of_ascii (by decide) (by decide)

/-- The forward lexer ends inside of a quoted name: it has come to its opening
quote, and the name, of which `body` has been typed, is not closed. -/
def EndsInQuoted (text body : Text) : Prop :=
  ∃ tokens rest, Reaches text tokens rest ∧ trimStart rest = '"' :: body ∧
    afterQuoted '"' body = none

theorem EndsInQuoted.suffix {text body : Text} (h : EndsInQuoted text body) :
    ∃ opening, text = opening ++ '"' :: body := by
  obtain ⟨tokens, rest, hreaches, htrim, -⟩ := h
  obtain ⟨opening, hopening⟩ := (htrim ▸ trimStart_suffix rest).trans hreaches.suffix
  exact ⟨opening, hopening.symm⟩

theorem wordFront_eq_opening_iff (opening body : Text) :
    wordFront (opening ++ '"' :: body) = opening ↔
      (∀ c ∈ body, isIdentChar c) ∧
        (opening ++ '"' :: body).count '"' % 2 = 1 := by
  have hfront := rdropWhile_append_stop not_isIdentChar_quote opening body
  have hbody : body.rdropWhile isIdentChar = [] ↔ ∀ c ∈ body, isIdentChar c :=
    List.rdropWhile_eq_nil_iff
  rw [wordFront, hfront]
  by_cases hall : body.rdropWhile isIdentChar = []
  · have hcount : body.count '"' = 0 := by
      rw [List.count_eq_zero]
      exact fun hmem => not_isIdentChar_quote (hbody.mp hall _ hmem)
    rw [hall, and_iff_right (hbody.mp hall)]
    simp [List.count_append, hcount]
  · refine iff_of_false (fun heq => ?_) fun h => hall (hbody.mpr h.1)
    have hlen := congrArg List.length heq
    have hpos := List.length_pos_iff.mpr hall
    split at hlen
    · simp only [List.length_dropLast, List.length_append,
        List.length_cons] at hlen
      omega
    · simp only [List.length_append, List.length_cons] at hlen
      omega

/-- The word starts at the quote that opens the name just when the name has only
characters of identifiers so far and the text has an odd number of quotes. -/
theorem quotedWord_iff {text body : Text} (h : EndsInQuoted text body)
    (base : ℕ) :
    (cursorContext text base).map CursorContext.word =
        some ⟨base + (lenBytes text - lenBytes ('"' :: body)),
          base + lenBytes text⟩ ↔
      (∀ c ∈ body, isIdentChar c) ∧ text.count '"' % 2 = 1 := by
  obtain ⟨opening, rfl⟩ := h.suffix
  have hprefix : wordFront (opening ++ '"' :: body) <+:
      opening ++ '"' :: body :=
    (wordFront_isPrefix _).trans (List.rdropWhile_prefix isIdentChar _)
  have hsame : wordFront (opening ++ '"' :: body) = opening ↔
      lenBytes (wordFront (opening ++ '"' :: body)) = lenBytes opening := by
    refine ⟨congrArg lenBytes, fun hlen => ?_⟩
    obtain ⟨rest, hrest⟩ := hprefix
    exact (Support.append_inj_of_span Rope.utf8Size_pos hrest hlen).1
  rw [← wordFront_eq_opening_iff, hsame, cursorContext_eq, Option.map_some,
    Rope.lenBytes_append, Nat.add_sub_cancel, Option.some.injEq]
  constructor
  · intro hword
    have := congrArg ByteRange.start hword
    simp only at this
    omega
  · intro hlen
    rw [hlen]

end Cursor

section Sample

local instance charsCursor : CharTables := CharTables.ascii

/-- After the first word comes the quote. -/
theorem endsInQuoted_second (body : Text) (hbody : afterQuoted '"' body = none)
    (hround : tokenizeStep ("select ".toList ++ '"' :: body) =
      some ([.word "select".toList], some (' ' :: '"' :: body))) :
    EndsInQuoted ("select ".toList ++ '"' :: body) body := by
  refine ⟨_, _, .round hround (.refl _), ?_, hbody⟩
  have hspace : isWhitespace ' ' = true := by decide
  have hquote : isWhitespace '"' = false := by decide
  simp [trimStart, hspace, hquote]

theorem quotedWord_iff_select :
    (cursorContext "select \"us".toList 0).map CursorContext.word =
      some ⟨7, 10⟩ := by
  have hends : EndsInQuoted "select \"us".toList "us".toList :=
    endsInQuoted_second _ (by decide +kernel) (by decide +kernel)
  have hbody : ("us".toList.all isIdentChar) = true := by decide +kernel
  exact (quotedWord_iff hends 0).mpr
    ⟨List.all_eq_true.mp hbody, by decide +kernel⟩

/-- A space in the name: the word is what follows the space. -/
theorem quotedWord_after_space :
    EndsInQuoted "select \"my ta".toList "my ta".toList ∧
      (cursorContext "select \"my ta".toList 0).map CursorContext.word =
        some ⟨11, 13⟩ ∧
      lenBytes "select \"my ta".toList - lenBytes "\"my ta".toList = 7 :=
  ⟨endsInQuoted_second _ (by decide +kernel) (by decide +kernel),
    by decide +kernel, by decide +kernel⟩

end Sample

end Tempr.Intel
