import Mathlib.Logic.Relation
import Tempr.Intel.Lexer

/-!
# The rounds of the lexer

What one round of the lexer leaves, as a function of the characters alone. From
it comes that no slice of the lexer panics, that a round always goes on with a
shorter part of the same text, and that a round which leaves something does the
same when more text follows.
-/

namespace Tempr.Intel

open Tempr.Editor (Rope)
open Tempr.Editor.Rope (lenBytes)
open Tempr.Support

/-! ## Slices at the end of a part -/

theorem sliceTo_append (a b : Text) :
    sliceTo (a ++ b) (lenBytes a) = some a := by
  have h : Rope.IsCharBoundary (a ++ b) (lenBytes a) :=
    isBoundary_append_left a b
  rw [sliceTo, if_pos h, Rope.byteToChar_append, List.take_left]

theorem sliceFrom_append (a b : Text) :
    sliceFrom (a ++ b) (lenBytes a) = some b := by
  have h : Rope.IsCharBoundary (a ++ b) (lenBytes a) :=
    isBoundary_append_left a b
  rw [sliceFrom, if_pos h, Rope.byteToChar_append, List.drop_left]

/-- The slice after one more character. -/
theorem sliceFrom_append_cons (a : Text) (c : Char) (b : Text) :
    sliceFrom (a ++ c :: b) (lenBytes a + c.utf8Size) = some b := by
  have h := sliceFrom_append (a ++ [c]) b
  rwa [Rope.lenBytes_append, Rope.lenBytes_cons, Rope.lenBytes_nil,
    Nat.add_zero, List.append_assoc, List.singleton_append] at h

theorem sliceFrom_cons (c : Char) (b : Text) :
    sliceFrom (c :: b) c.utf8Size = some b := by
  simpa using sliceFrom_append_cons [] c b

theorem sliceFrom_ascii {c : Char} (hc : c.utf8Size = 1) (after : Text) :
    sliceFrom (c :: after) 1 = some after :=
  hc ▸ sliceFrom_cons c after

/-! ## What the parts of a round leave -/

/-- What follows a quoted text whose opening quote has been read, if it is
closed. -/
def afterQuoted (quote : Char) : List Char → Option (List Char)
  | [] => none
  | [c] => if c = quote then some [] else none
  | c :: d :: rest =>
      if c = quote then
        if d = quote then afterQuoted quote rest else some (d :: rest)
      else afterQuoted quote (d :: rest)

/-- What follows the comment at a depth, if it is closed. -/
def afterComment : ℕ → List Char → Option (List Char)
  | _, [] => none
  | _, [_] => none
  | depth, c :: d :: rest =>
      if c = '/' ∧ d = '*' then afterComment (depth + 1) rest
      else if c = '*' ∧ d = '/' then
        if depth - 1 = 0 then some rest else afterComment (depth - 1) rest
      else afterComment depth (d :: rest)

/-- What follows the first occurrence of a text. -/
def afterText (pattern : Text) : Text → Option Text
  | [] => if pattern = [] then some [] else none
  | c :: text =>
      if pattern.isPrefixOf (c :: text) then
        some ((c :: text).drop pattern.length)
      else afterText pattern text

section Quoted

variable {quote : Char} (hquote : quote.utf8Size = 1)
include hquote

/-- A quote is read: the text goes on after a doubled one, and ends else. -/
theorem takeQuotedFrom_quote (done body chars : Text) :
    takeQuotedFrom quote (done ++ quote :: chars) body false (lenBytes done)
        (quote :: chars) =
      if chars.head? = some quote then
        takeQuotedFrom quote (done ++ quote :: chars) body true
          (lenBytes done + quote.utf8Size) chars
      else some (body, chars) := by
  have hrest : sliceFrom (done ++ quote :: chars) (lenBytes done + 1) =
      some chars := hquote ▸ sliceFrom_append_cons done quote chars
  rw [takeQuotedFrom, if_pos rfl, hrest]
  rfl

theorem takeQuotedFrom_eq (chars : List Char) : ∀ done body : Text,
    (takeQuotedFrom quote (done ++ chars) body false (lenBytes done) chars).map
        Prod.snd =
      some ((afterQuoted quote chars).getD []) := by
  induction chars using afterQuoted.induct quote with
  | case1 =>
    intro done body
    rfl
  | case2 =>
    intro done body
    rw [takeQuotedFrom_quote hquote]
    simp [afterQuoted]
  | case3 c hc =>
    intro done body
    simp [takeQuotedFrom, afterQuoted, hc]
  | case4 rest ih =>
    intro done body
    rw [takeQuotedFrom_quote hquote, if_pos List.head?_cons, takeQuotedFrom]
    have hih := ih (done ++ [quote, quote]) (body ++ [quote])
    simp only [Rope.lenBytes_append, Rope.lenBytes_cons, Rope.lenBytes_nil,
      List.append_assoc, List.cons_append, List.nil_append, Nat.add_zero] at hih
    rw [Nat.add_assoc, hih]
    simp [afterQuoted]
  | case5 d rest hd =>
    intro done body
    rw [takeQuotedFrom_quote hquote, if_neg (by simpa using hd)]
    simp [afterQuoted, hd]
  | case6 c d rest hc ih =>
    intro done body
    have hih := ih (done ++ [c]) (body ++ [c])
    simp only [Rope.lenBytes_append, Rope.lenBytes_cons, Rope.lenBytes_nil,
      List.append_assoc, List.cons_append, List.nil_append, Nat.add_zero] at hih
    rw [takeQuotedFrom, if_neg hc, hih]
    simp [afterQuoted, hc]

end Quoted

theorem takeQuoted_eq (body : Text) :
    (takeQuoted ('"' :: body)).map Prod.snd =
      some ((afterQuoted '"' body).getD []) :=
  takeQuotedFrom_eq (by decide) body ['"'] []

theorem skipSingleQuoted_eq (body : Text) :
    skipSingleQuoted ('\'' :: body) = some ((afterQuoted '\'' body).getD []) :=
  takeQuotedFrom_eq (by decide) body ['\''] []

theorem isPrefixOf_pair_iff (a b c d : Char) (rest : Text) :
    [a, b].isPrefixOf (c :: d :: rest) ↔ a = c ∧ b = d := by
  simp [List.isPrefixOf]

theorem skipBlockCommentFrom_cons (done : Text) (c : Char) (chars : Text)
    (fuel depth : ℕ) :
    skipBlockCommentFrom (done ++ c :: chars) (fuel + 1) depth (lenBytes done) =
      if "/*".toList.isPrefixOf (c :: chars) then
        skipBlockCommentFrom (done ++ c :: chars) fuel (depth + 1)
          (lenBytes done + 2)
      else if "*/".toList.isPrefixOf (c :: chars) then
        if depth - 1 = 0 then
          sliceFrom (done ++ c :: chars) (lenBytes done + 2)
        else skipBlockCommentFrom (done ++ c :: chars) fuel (depth - 1)
          (lenBytes done + 2)
      else skipBlockCommentFrom (done ++ c :: chars) fuel depth
        (lenBytes done + c.utf8Size) := by
  have hlt : lenBytes done < lenBytes (done ++ c :: chars) := by
    have := Rope.utf8Size_pos c
    simp only [Rope.lenBytes_append, Rope.lenBytes_cons]
    omega
  rw [skipBlockCommentFrom, if_pos hlt, sliceFrom_append]
  rfl

/-- The comment is read in fewer rounds than there are characters. -/
theorem skipBlockCommentFrom_eq (depth : ℕ) (chars : List Char) :
    ∀ (done : Text) (fuel : ℕ), chars.length < fuel →
      skipBlockCommentFrom (done ++ chars) fuel depth (lenBytes done) =
        some ((afterComment depth chars).getD []) := by
  have hone : ∀ (done : Text) (c : Char) (chars : Text),
      lenBytes done + c.utf8Size = lenBytes (done ++ [c]) ∧
        done ++ c :: chars = (done ++ [c]) ++ chars := by simp
  have htwo : ∀ (done : Text) (c d : Char) (chars : Text),
      c.utf8Size = 1 → d.utf8Size = 1 →
      lenBytes done + 2 = lenBytes (done ++ [c, d]) ∧
        done ++ c :: d :: chars = (done ++ [c, d]) ++ chars := by
    intro done c d chars hc hd
    simp [hc, hd]
  induction depth, chars using afterComment.induct with
  | case1 depth =>
    intro done fuel hfuel
    obtain ⟨fuel, rfl⟩ := Nat.exists_eq_add_of_lt hfuel
    simp [skipBlockCommentFrom, afterComment]
  | case2 depth c =>
    intro done fuel hfuel
    obtain ⟨fuel, rfl⟩ : ∃ n, fuel = n + 1 + 1 := by
      rw [List.length_singleton] at hfuel
      exact ⟨fuel - 2, by omega⟩
    rw [skipBlockCommentFrom_cons, if_neg (by simp [List.isPrefixOf]),
      if_neg (by simp [List.isPrefixOf]), (hone done c []).1]
    simp [skipBlockCommentFrom, afterComment]
  | case3 depth c d rest hopen ih =>
    intro done fuel hfuel
    obtain ⟨rfl, rfl⟩ := hopen
    obtain ⟨hlen, htext⟩ := htwo done '/' '*' rest (by decide) (by decide)
    obtain ⟨fuel, rfl⟩ := Nat.exists_eq_add_of_lt hfuel
    rw [skipBlockCommentFrom_cons, if_pos (by simp [List.isPrefixOf]), hlen,
      htext, ih _ _ (by simp only [List.length_cons]; omega)]
    simp [afterComment]
  | case4 depth c d rest hopen hclose hdepth =>
    intro done fuel hfuel
    obtain ⟨rfl, rfl⟩ := hclose
    obtain ⟨hlen, htext⟩ := htwo done '*' '/' rest (by decide) (by decide)
    obtain ⟨fuel, rfl⟩ := Nat.exists_eq_add_of_lt hfuel
    rw [skipBlockCommentFrom_cons, if_neg (by simp [List.isPrefixOf]),
      if_pos (by simp [List.isPrefixOf]), if_pos hdepth, hlen, htext,
      sliceFrom_append]
    simp [afterComment, hdepth]
  | case5 depth c d rest hopen hclose hdepth ih =>
    intro done fuel hfuel
    obtain ⟨rfl, rfl⟩ := hclose
    obtain ⟨hlen, htext⟩ := htwo done '*' '/' rest (by decide) (by decide)
    obtain ⟨fuel, rfl⟩ := Nat.exists_eq_add_of_lt hfuel
    rw [skipBlockCommentFrom_cons, if_neg (by simp [List.isPrefixOf]),
      if_pos (by simp [List.isPrefixOf]), if_neg hdepth, hlen, htext,
      ih _ _ (by simp only [List.length_cons]; omega)]
    simp [afterComment, hdepth]
  | case6 depth c d rest hopen hclose ih =>
    intro done fuel hfuel
    obtain ⟨fuel, rfl⟩ := Nat.exists_eq_add_of_lt hfuel
    have hopen' : ¬ "/*".toList.isPrefixOf (c :: d :: rest) := fun h => by
      obtain ⟨rfl, rfl⟩ := (isPrefixOf_pair_iff '/' '*' c d rest).mp h
      exact hopen ⟨rfl, rfl⟩
    have hclose' : ¬ "*/".toList.isPrefixOf (c :: d :: rest) := fun h => by
      obtain ⟨rfl, rfl⟩ := (isPrefixOf_pair_iff '*' '/' c d rest).mp h
      exact hclose ⟨rfl, rfl⟩
    obtain ⟨hlen, htext⟩ := hone done c (d :: rest)
    rw [skipBlockCommentFrom_cons, if_neg hopen', if_neg hclose', hlen, htext,
      ih _ _ (by simp only [List.length_cons]; omega), afterComment,
      if_neg hopen, if_neg hclose]

theorem skipBlockComment_eq (text : Text) :
    skipBlockComment text = some ((afterComment 0 text).getD []) :=
  skipBlockCommentFrom_eq 0 text [] _ (Nat.lt_succ_self _)

/-- A text is found where it occurs first. -/
theorem findText_split (pattern text : Text) :
    (∃ a b, text = a ++ pattern ++ b ∧
      findText pattern text = some (lenBytes a) ∧
      afterText pattern text = some b) ∨
    (findText pattern text = none ∧ afterText pattern text = none) := by
  induction text with
  | nil =>
    by_cases hp : pattern = []
    · exact Or.inl ⟨[], [], by simp [hp], by simp [findText, hp],
        by simp [afterText, hp]⟩
    · exact Or.inr ⟨by simp [findText, hp], by simp [afterText, hp]⟩
  | cons c text ih =>
    by_cases hp : pattern.isPrefixOf (c :: text)
    · obtain ⟨b, hb⟩ := List.isPrefixOf_iff_prefix.mp hp
      refine Or.inl ⟨[], b, by simpa using hb.symm, by simp [findText, hp], ?_⟩
      rw [afterText, if_pos hp, ← hb, List.drop_left]
    · rcases ih with ⟨a, b, htext, hfind, hafter⟩ | ⟨hfind, hafter⟩
      · refine Or.inl ⟨c :: a, b, by simp [htext], ?_, ?_⟩
        · rw [findText, if_neg hp, hfind, Option.map_some, Rope.lenBytes_cons,
            Nat.add_comm]
        · rw [afterText, if_neg hp, hafter]
      · exact Or.inr ⟨by rw [findText, if_neg hp, hfind]; rfl,
          by rw [afterText, if_neg hp, hafter]⟩

variable [CharTables]

theorem takeWord_eq (text : Text) :
    takeWord text =
      some (text.takeWhile isIdentChar, text.dropWhile isIdentChar) := by
  have hto := sliceTo_append (text.takeWhile isIdentChar)
    (text.dropWhile isIdentChar)
  have hfrom := sliceFrom_append (text.takeWhile isIdentChar)
    (text.dropWhile isIdentChar)
  rw [List.takeWhile_append_dropWhile] at hto hfrom
  simp [takeWord, hto, hfrom]

def isTagChar (c : Char) : Bool :=
  isAlphabetic c || isNumeric c || decide (c = '_')

/-- What follows a text in dollar quotes whose first dollar has been read;
nothing if the dollar starts something else. -/
def afterDollar (rest : Text) : Option Text :=
  match rest.dropWhile isTagChar with
  | '$' :: body =>
      some ((afterText ('$' :: rest.takeWhile isTagChar ++ ['$']) body).getD [])
  | _ => none

theorem skipDollarQuoted_eq (rest : Text) :
    skipDollarQuoted ('$' :: rest) = some (afterDollar rest) := by
  have hsplit := List.takeWhile_append_dropWhile (p := isTagChar) (l := rest)
  have hafter := sliceFrom_append (rest.takeWhile isTagChar)
    (rest.dropWhile isTagChar)
  rw [hsplit] at hafter
  have htagChar : (fun c => isAlphabetic c || isNumeric c ||
      decide (c = '_')) = isTagChar := rfl
  change (sliceFrom rest (lenBytes (rest.takeWhile isTagChar))).bind _ = _
  rw [hafter, Option.bind_some, htagChar, afterDollar]
  cases hrest : rest.dropWhile isTagChar with
  | nil => rfl
  | cons c body =>
    by_cases hc : c = '$'
    swap
    · rw [if_pos (by simpa using hc)]
      split
      · rename_i heq
        exact absurd (List.cons.inj heq).1 hc
      · rfl
    subst hc
    rw [if_neg (by simp)]
    rw [hrest] at hsplit
    have htext : '$' :: rest =
        ('$' :: rest.takeWhile isTagChar ++ ['$']) ++ body := by
      conv_lhs => rw [← hsplit]
      simp
    have hlen : lenBytes (rest.takeWhile isTagChar) + 2 =
        lenBytes ('$' :: rest.takeWhile isTagChar ++ ['$']) := by
      simp only [Rope.lenBytes_cons, Rope.lenBytes_append, Rope.lenBytes_nil]
      have : ('$' : Char).utf8Size = 1 := by decide
      omega
    generalize '$' :: rest.takeWhile isTagChar ++ ['$'] = tag at htext hlen ⊢
    rw [htext, hlen, sliceTo_append, sliceFrom_append]
    rcases findText_split tag body with
      ⟨a, b, hbody, hfind, hafter⟩ | ⟨hfind, hafter⟩
    · have hend := sliceFrom_append (tag ++ a ++ tag) b
      rw [Rope.lenBytes_append, Rope.lenBytes_append] at hend
      simp only [Option.bind_eq_bind, Option.bind_some, hfind, hafter,
        Option.getD_some]
      have hwhole : tag ++ body = tag ++ a ++ tag ++ b := by
        rw [hbody]
        simp
      rw [hwhole, hend]
      rfl
    · simp [hfind, hafter]

/-! ## One round -/

/-- The tokens of one round on a text without leading spaces, and the text that
the lexer goes on with. -/
def lexed (rest : Text) : List Token × Option Text :=
  match rest with
  | [] => ([], none)
  | first :: after =>
      if "--".toList.isPrefixOf rest then ([], afterText ['\n'] rest)
      else if "/*".toList.isPrefixOf rest then
        ([], some ((afterComment 0 rest).getD []))
      else if first = '\'' then ([], some ((afterQuoted '\'' after).getD []))
      else if first = '"' then
        ([.quoted], some ((afterQuoted '"' after).getD []))
      else if first = '$' then
        match afterDollar after with
        | some after => ([], some after)
        | none =>
            ([.word (rest.takeWhile isIdentChar)],
              some (rest.dropWhile isIdentChar))
      else if first = '.' then ([.dot], some after)
      else if first = ',' then ([.comma], some after)
      else if first = '(' then ([.open], some after)
      else if first = ')' then ([.close], some after)
      else if isIdentStart first || first.isDigit then
        ([.word (rest.takeWhile isIdentChar)],
          some (rest.dropWhile isIdentChar))
      else ([.other], some after)

/-- No round panics. -/
theorem tokenizeStep_eq (text : Text) :
    tokenizeStep text = some (lexed (trimStart text)) := by
  rw [tokenizeStep]
  generalize trimStart text = rest
  cases rest with
  | nil => rfl
  | cons first after =>
    rw [lexed]
    dsimp only
    by_cases hline : "--".toList.isPrefixOf (first :: after)
    · rw [if_pos hline, if_pos hline]
      rcases findText_split ['\n'] (first :: after) with
        ⟨a, b, htext, hfind, hafter⟩ | ⟨hfind, hafter⟩
      · have hend := sliceFrom_append (a ++ ['\n']) b
        have hnewline : lenBytes ['\n'] = 1 := by decide
        rw [← htext, Rope.lenBytes_append, hnewline] at hend
        rw [hfind, hafter]
        simp only [hend]
        rfl
      · rw [hfind, hafter]
    rw [if_neg hline, if_neg hline]
    by_cases hblock : "/*".toList.isPrefixOf (first :: after)
    · rw [if_pos hblock, if_pos hblock, skipBlockComment_eq]
      rfl
    rw [if_neg hblock, if_neg hblock]
    by_cases hsingle : first = '\''
    · rw [if_pos hsingle, if_pos hsingle, hsingle, skipSingleQuoted_eq]
      rfl
    rw [if_neg hsingle, if_neg hsingle]
    by_cases hdouble : first = '"'
    · obtain ⟨p, hp, hrest⟩ := Option.map_eq_some_iff.mp (takeQuoted_eq after)
      rw [if_pos hdouble, if_pos hdouble, hdouble, hp, ← hrest]
      rfl
    rw [if_neg hdouble, if_neg hdouble]
    by_cases hdollar : first = '$'
    · rw [if_pos hdollar, if_pos hdollar, hdollar, skipDollarQuoted_eq]
      cases afterDollar after with
      | some after => rfl
      | none =>
        simp only [takeWord_eq]
        rfl
    rw [if_neg hdollar, if_neg hdollar]
    by_cases hdot : first = '.'
    · rw [if_pos hdot, if_pos hdot, hdot, sliceFrom_ascii (by decide)]
      rfl
    rw [if_neg hdot, if_neg hdot]
    by_cases hcomma : first = ','
    · rw [if_pos hcomma, if_pos hcomma, hcomma, sliceFrom_ascii (by decide)]
      rfl
    rw [if_neg hcomma, if_neg hcomma]
    by_cases hopen : first = '('
    · rw [if_pos hopen, if_pos hopen, hopen, sliceFrom_ascii (by decide)]
      rfl
    rw [if_neg hopen, if_neg hopen]
    by_cases hclose : first = ')'
    · rw [if_pos hclose, if_pos hclose, hclose, sliceFrom_ascii (by decide)]
      rfl
    rw [if_neg hclose, if_neg hclose]
    by_cases hword : isIdentStart first || first.isDigit
    · rw [if_pos hword, if_pos hword, takeWord_eq]
      rfl
    · rw [if_neg hword, if_neg hword, sliceFrom_cons]
      rfl

/-! ## A round leaves a shorter part -/

omit [CharTables] in
theorem afterQuoted_suffix {quote : Char} {chars rest : List Char}
    (h : afterQuoted quote chars = some rest) :
    rest <:+ chars ∧ rest.length < chars.length := by
  induction chars using afterQuoted.induct quote with
  | case1 => cases h
  | case2 =>
    simp only [afterQuoted, if_true, Option.some.injEq] at h
    subst h
    exact ⟨List.nil_suffix, by simp⟩
  | case3 c hc => simp [afterQuoted, hc] at h
  | case4 tail ih =>
    simp only [afterQuoted, if_true] at h
    obtain ⟨hsuffix, hlt⟩ := ih h
    exact ⟨hsuffix.trans ⟨[quote, quote], rfl⟩, by simp; omega⟩
  | case5 d tail hd =>
    simp only [afterQuoted, if_true, if_neg hd, Option.some.injEq] at h
    subst h
    exact ⟨List.suffix_cons quote _, by simp⟩
  | case6 c d tail hc ih =>
    simp only [afterQuoted, if_neg hc] at h
    obtain ⟨hsuffix, hlt⟩ := ih h
    exact ⟨hsuffix.trans (List.suffix_cons c _), by
      rw [List.length_cons]
      omega⟩

omit [CharTables] in
theorem afterComment_suffix {depth : ℕ} {chars rest : List Char}
    (h : afterComment depth chars = some rest) :
    rest <:+ chars ∧ rest.length < chars.length := by
  induction depth, chars using afterComment.induct with
  | case1 depth => cases h
  | case2 depth c => cases h
  | case3 depth c d tail hopen ih =>
    rw [afterComment, if_pos hopen] at h
    obtain ⟨hsuffix, hlt⟩ := ih h
    exact ⟨hsuffix.trans ⟨[c, d], rfl⟩, by simp; omega⟩
  | case4 depth c d tail hopen hclose hdepth =>
    rw [afterComment, if_neg hopen, if_pos hclose, if_pos hdepth] at h
    cases h
    exact ⟨⟨[c, d], rfl⟩, by simp only [List.length_cons]; omega⟩
  | case5 depth c d tail hopen hclose hdepth ih =>
    rw [afterComment, if_neg hopen, if_pos hclose, if_neg hdepth] at h
    obtain ⟨hsuffix, hlt⟩ := ih h
    exact ⟨hsuffix.trans ⟨[c, d], rfl⟩, by simp; omega⟩
  | case6 depth c d tail hopen hclose ih =>
    rw [afterComment, if_neg hopen, if_neg hclose] at h
    obtain ⟨hsuffix, hlt⟩ := ih h
    exact ⟨hsuffix.trans (List.suffix_cons c _), by
      rw [List.length_cons]
      omega⟩

omit [CharTables] in
theorem afterText_split {pattern text rest : Text}
    (h : afterText pattern text = some rest) :
    ∃ a, text = a ++ pattern ++ rest := by
  rcases findText_split pattern text with ⟨a, b, htext, -, hb⟩ | ⟨-, hnone⟩
  · rw [hb] at h
    cases h
    exact ⟨a, htext⟩
  · rw [hnone] at h
    cases h

theorem afterDollar_suffix {chars rest : Text}
    (h : afterDollar chars = some rest) : rest <:+ chars := by
  rw [afterDollar] at h
  split at h
  · rename_i body hbody
    cases h
    have hsuffix : body <:+ chars :=
      (List.suffix_cons '$' body).trans
        (hbody ▸ List.dropWhile_suffix isTagChar)
    cases hafter :
      afterText ('$' :: chars.takeWhile isTagChar ++ ['$']) body with
    | none => exact List.nil_suffix
    | some rest =>
      obtain ⟨a, ha⟩ := afterText_split hafter
      exact (ha ▸ List.suffix_append _ rest : rest <:+ body).trans hsuffix
  · cases h

theorem isIdentChar_of_digit {c : Char} (h : c.isDigit) : isIdentChar c := by
  have hascii : c.toNat < 128 := by
    simp only [Char.isDigit, Bool.and_eq_true, decide_eq_true_eq] at h
    have := h.2
    exact Nat.lt_of_le_of_lt this (by decide)
  rw [isIdentChar, CharTables.isNumeric_ascii c hascii, h]
  simp

theorem isIdentChar_of_start {c : Char} (h : isIdentStart c) :
    isIdentChar c := by
  simp only [isIdentStart, isIdentChar, Bool.or_eq_true, decide_eq_true_eq]
    at h ⊢
  tauto

theorem isIdentChar_of_tag {c : Char} (h : isTagChar c) : isIdentChar c := by
  simp only [isTagChar, isIdentChar, Bool.or_eq_true, decide_eq_true_eq] at h ⊢
  tauto

theorem isIdentChar_dollar : isIdentChar '$' := by
  simp [isIdentChar]

omit [CharTables] in
theorem dropWhile_shorter {p : Char → Bool} {c : Char} (hc : p c)
    (chars : Text) :
    ((c :: chars).dropWhile p).length < (c :: chars).length := by
  rw [List.dropWhile_cons_of_pos hc, List.length_cons]
  exact Nat.lt_succ_of_le (List.dropWhile_suffix p).length_le

omit [CharTables] in
theorem getD_suffix {text : Text} {left : Option Text} (hne : text ≠ [])
    (h : ∀ rest, left = some rest →
      rest <:+ text ∧ rest.length < text.length) :
    left.getD [] <:+ text ∧ (left.getD []).length < text.length := by
  cases left with
  | none => exact ⟨List.nil_suffix, List.length_pos_iff.mpr hne⟩
  | some rest => exact h rest rfl

/-- What starts neither a quote nor a comment is one character, or a word. -/
theorem lexed_symbol_or_word {first : Char} (hsingle : first ≠ '\'')
    (hdouble : first ≠ '"') (hdollar : first ≠ '$') :
    (∃ token, ∀ after, ¬ "--".toList.isPrefixOf (first :: after) →
        ¬ "/*".toList.isPrefixOf (first :: after) →
          lexed (first :: after) = ([token], some after)) ∨
      (isIdentChar first ∧ ∀ after, ¬ "--".toList.isPrefixOf (first :: after) →
        ¬ "/*".toList.isPrefixOf (first :: after) →
          lexed (first :: after) =
            ([.word ((first :: after).takeWhile isIdentChar)],
              some ((first :: after).dropWhile isIdentChar))) := by
  have hlexed : ∀ after, ¬ "--".toList.isPrefixOf (first :: after) →
      ¬ "/*".toList.isPrefixOf (first :: after) →
      lexed (first :: after) =
        if first = '.' then ([.dot], some after)
        else if first = ',' then ([.comma], some after)
        else if first = '(' then ([.open], some after)
        else if first = ')' then ([.close], some after)
        else if isIdentStart first || first.isDigit then
          ([.word ((first :: after).takeWhile isIdentChar)],
            some ((first :: after).dropWhile isIdentChar))
        else ([.other], some after) := by
    intro after hline hblock
    rw [lexed, if_neg hline, if_neg hblock, if_neg hsingle, if_neg hdouble,
      if_neg hdollar]
  by_cases hdot : first = '.'
  · refine Or.inl ⟨.dot, fun after hline hblock => ?_⟩
    rw [hlexed after hline hblock, if_pos hdot]
  by_cases hcomma : first = ','
  · refine Or.inl ⟨.comma, fun after hline hblock => ?_⟩
    rw [hlexed after hline hblock, if_neg hdot, if_pos hcomma]
  by_cases hopen : first = '('
  · refine Or.inl ⟨.open, fun after hline hblock => ?_⟩
    rw [hlexed after hline hblock, if_neg hdot, if_neg hcomma, if_pos hopen]
  by_cases hclose : first = ')'
  · refine Or.inl ⟨.close, fun after hline hblock => ?_⟩
    rw [hlexed after hline hblock, if_neg hdot, if_neg hcomma, if_neg hopen,
      if_pos hclose]
  by_cases hword : isIdentStart first || first.isDigit
  · refine Or.inr ⟨?_, fun after hline hblock => ?_⟩
    · rcases Bool.or_eq_true_iff.mp hword with hstart | hdigit
      · exact isIdentChar_of_start hstart
      · exact isIdentChar_of_digit hdigit
    · rw [hlexed after hline hblock, if_neg hdot, if_neg hcomma, if_neg hopen,
        if_neg hclose, if_pos hword]
  · refine Or.inl ⟨.other, fun after hline hblock => ?_⟩
    rw [hlexed after hline hblock, if_neg hdot, if_neg hcomma, if_neg hopen,
      if_neg hclose, if_neg hword]

/-- What a round goes on with is a shorter part of the text. -/
theorem lexed_suffix {text rest : Text} {tokens : List Token}
    (h : lexed text = (tokens, some rest)) :
    rest <:+ text ∧ rest.length < text.length := by
  cases text with
  | nil => cases h
  | cons first after =>
    have htail : after <:+ first :: after ∧
        after.length < (first :: after).length :=
      ⟨List.suffix_cons first after, by simp⟩
    have hquoted : ∀ quote, (afterQuoted quote after).getD [] <:+
          first :: after ∧
        ((afterQuoted quote after).getD []).length <
          (first :: after).length := by
      refine fun quote =>
        getD_suffix (List.cons_ne_nil _ _) fun rest hrest => ?_
      obtain ⟨hsuffix, hlt⟩ := afterQuoted_suffix hrest
      exact ⟨hsuffix.trans htail.1, hlt.trans htail.2⟩
    by_cases hline : "--".toList.isPrefixOf (first :: after)
    · rw [lexed, if_pos hline] at h
      obtain ⟨a, ha⟩ := afterText_split (Prod.mk.inj h).2
      rw [ha]
      exact ⟨List.suffix_append _ rest, by
        simp only [List.length_append, List.length_singleton]
        omega⟩
    by_cases hblock : "/*".toList.isPrefixOf (first :: after)
    · rw [lexed, if_neg hline, if_pos hblock] at h
      cases h
      exact getD_suffix (List.cons_ne_nil _ _) fun rest hrest =>
        afterComment_suffix hrest
    by_cases hsingle : first = '\''
    · rw [lexed, if_neg hline, if_neg hblock, if_pos hsingle] at h
      cases h
      exact hquoted '\''
    by_cases hdouble : first = '"'
    · rw [lexed, if_neg hline, if_neg hblock, if_neg hsingle, if_pos hdouble]
        at h
      cases h
      exact hquoted '"'
    by_cases hdollar : first = '$'
    · rw [lexed, if_neg hline, if_neg hblock, if_neg hsingle, if_neg hdouble,
        if_pos hdollar] at h
      cases hafter : afterDollar after with
      | none =>
        rw [hafter] at h
        cases h
        exact ⟨List.dropWhile_suffix _,
          dropWhile_shorter (hdollar ▸ isIdentChar_dollar) after⟩
      | some left =>
        rw [hafter] at h
        cases h
        have hsuffix := afterDollar_suffix hafter
        exact ⟨hsuffix.trans htail.1, hsuffix.length_le.trans_lt htail.2⟩
    rcases lexed_symbol_or_word hsingle hdouble hdollar with
      ⟨token, hsymbol⟩ | ⟨hident, hword⟩
    · rw [hsymbol after hline hblock] at h
      cases h
      exact htail
    · rw [hword after hline hblock] at h
      cases h
      exact ⟨List.dropWhile_suffix _, dropWhile_shorter hident after⟩

theorem trimStart_suffix (text : Text) : trimStart text <:+ text :=
  List.dropWhile_suffix _

/-! ## All rounds -/

/-- The tokens of a text. -/
def tokensOf (text : Text) : List Token :=
  match _h : lexed (trimStart text) with
  | (tokens, some rest) => tokens ++ tokensOf rest
  | (tokens, none) => tokens
termination_by text.length
decreasing_by
  exact (lexed_suffix _h).2.trans_le (trimStart_suffix text).length_le

theorem tokensOf_some {text rest : Text} {tokens : List Token}
    (h : lexed (trimStart text) = (tokens, some rest)) :
    tokensOf text = tokens ++ tokensOf rest := by
  rw [tokensOf]
  split
  · rename_i heq
    rw [h] at heq
    cases heq
    rfl
  · rename_i heq
    rw [h] at heq
    cases heq

theorem tokensOf_none {text : Text} {tokens : List Token}
    (h : lexed (trimStart text) = (tokens, none)) : tokensOf text = tokens := by
  rw [tokensOf]
  split
  · rename_i heq
    rw [h] at heq
    cases heq
  · rename_i heq
    rw [h] at heq
    cases heq
    rfl

/-- There are enough rounds. -/
theorem tokenizeFrom_eq (fuel : ℕ) (text : Text) (hfuel : text.length < fuel) :
    tokenizeFrom fuel text = some (tokensOf text) := by
  induction fuel generalizing text with
  | zero => omega
  | succ fuel ih =>
    rw [tokenizeFrom, tokenizeStep_eq]
    rcases hlexed : lexed (trimStart text) with ⟨tokens, next⟩
    cases next with
    | none =>
      rw [tokensOf_none hlexed]
      rfl
    | some rest =>
      have hlt := (lexed_suffix hlexed).2.trans_le
        (trimStart_suffix text).length_le
      rw [tokensOf_some hlexed]
      simp only [Option.bind_eq_bind, Option.bind_some, ih rest (by omega)]
      rfl

theorem tokenize_eq (text : Text) : tokenize text = some (tokensOf text) :=
  tokenizeFrom_eq _ text (Nat.lt_succ_self _)

omit [CharTables] in
/-- A part at the end that has fewer characters has fewer bytes. -/
theorem lenBytes_lt_of_suffix {rest text : Text} (h : rest <:+ text)
    (hlt : rest.length < text.length) : lenBytes rest < lenBytes text := by
  obtain ⟨_ | ⟨c, before⟩, rfl⟩ := h
  · exact absurd hlt (Nat.lt_irrefl _)
  · have := Rope.utf8Size_pos c
    rw [Rope.lenBytes_append, Rope.lenBytes_cons]
    omega

/-- A round that goes on does so with a shorter part of the text. -/
theorem tokenizeStep_suffix {text rest : Text} {tokens : List Token}
    (h : tokenizeStep text = some (tokens, some rest)) :
    rest <:+ text ∧ lenBytes rest < lenBytes text := by
  rw [tokenizeStep_eq, Option.some.injEq] at h
  obtain ⟨hsuffix, hlt⟩ := lexed_suffix h
  have htrim := trimStart_suffix text
  have hrest := hsuffix.trans htrim
  exact ⟨hrest, lenBytes_lt_of_suffix hrest (hlt.trans_le htrim.length_le)⟩

/-- No round slices inside of a character, each that goes on leaves less of the
text, and the rounds come to an end. -/
theorem tokenize_total :
    (∀ text : Text, ∃ tokens next,
      tokenizeStep text = some (tokens, next) ∧
        ∀ rest, next = some rest →
          rest <:+ text ∧ lenBytes rest < lenBytes text) ∧
    ∀ text : Text, ∃ tokens, tokenize text = some tokens ∧
      ∀ fuel, text.length < fuel → tokenizeFrom fuel text = some tokens := by
  constructor
  · intro text
    have hround := tokenizeStep_eq text
    rcases hlexed : lexed (trimStart text) with ⟨tokens, next⟩
    rw [hlexed] at hround
    refine ⟨tokens, next, hround, fun rest hnext => ?_⟩
    exact tokenizeStep_suffix (hnext ▸ hround)
  · intro text
    exact ⟨tokensOf text, tokenize_eq text,
      fun fuel => tokenizeFrom_eq fuel text⟩

/-- The rounds of the lexer lead from one text to another, with these tokens. -/
inductive Reaches : Text → List Token → Text → Prop
  | refl (text : Text) : Reaches text [] text
  | round {text rest last : Text} {tokens more : List Token}
      (h : tokenizeStep text = some (tokens, some rest))
      (hrest : Reaches rest more last) : Reaches text (tokens ++ more) last

theorem Reaches.tokensOf_eq {text rest : Text} {tokens : List Token}
    (h : Reaches text tokens rest) :
    tokensOf text = tokens ++ tokensOf rest := by
  induction h with
  | refl text => rfl
  | round h _ ih =>
    rw [tokenizeStep_eq, Option.some.injEq] at h
    rw [tokensOf_some h, ih, List.append_assoc]

theorem Reaches.suffix {text rest : Text} {tokens : List Token}
    (h : Reaches text tokens rest) : rest <:+ text := by
  induction h with
  | refl text => exact List.suffix_refl text
  | round h _ ih => exact ih.trans (tokenizeStep_suffix h).1

/-! ## Other text behind -/

omit [CharTables] in
/-- What leaves more than the text behind a part has read some of the part. -/
theorem length_lt_of_left {chars rest more : Text}
    (h : (rest ++ more).length < (chars ++ more).length) :
    rest.length < chars.length := by
  rw [List.length_append, List.length_append] at h
  omega

omit [CharTables] in
theorem afterQuoted_swap {quote : Char} {chars rest more : List Char}
    (h : afterQuoted quote (chars ++ more) = some (rest ++ more))
    (hne : rest ≠ [])
    (other : List Char) :
    afterQuoted quote (chars ++ other) = some (rest ++ other) := by
  have hshort := length_lt_of_left (afterQuoted_suffix h).2
  have hpos := List.length_pos_iff.mpr hne
  induction chars using afterQuoted.induct quote with
  | case1 => cases hshort
  | case2 =>
    rw [List.length_singleton] at hshort
    omega
  | case3 c hc =>
    rw [List.length_singleton] at hshort
    omega
  | case4 tail ih =>
    simp only [List.cons_append, afterQuoted, if_true] at h ⊢
    exact ih h (length_lt_of_left (afterQuoted_suffix h).2)
  | case5 d tail hd =>
    simp only [List.cons_append, afterQuoted, if_true, if_neg hd,
      Option.some.injEq] at h ⊢
    rw [← List.cons_append, List.append_cancel_right_eq] at h
    rw [← h, List.cons_append]
  | case6 c d tail hc ih =>
    simp only [List.cons_append, afterQuoted, if_neg hc] at h ⊢
    rw [← List.cons_append] at h ⊢
    exact ih h (length_lt_of_left (afterQuoted_suffix h).2)

omit [CharTables] in
theorem afterComment_swap {depth : ℕ} {chars rest more : List Char}
    (h : afterComment depth (chars ++ more) = some (rest ++ more))
    (hne : rest ≠ []) (other : List Char) :
    afterComment depth (chars ++ other) = some (rest ++ other) := by
  have hshort := length_lt_of_left (afterComment_suffix h).2
  have hpos := List.length_pos_iff.mpr hne
  induction depth, chars using afterComment.induct with
  | case1 depth => cases hshort
  | case2 depth c =>
    rw [List.length_singleton] at hshort
    omega
  | case3 depth c d tail hopen ih =>
    rw [List.cons_append, List.cons_append, afterComment, if_pos hopen] at h ⊢
    exact ih h (length_lt_of_left (afterComment_suffix h).2)
  | case4 depth c d tail hopen hclose hdepth =>
    rw [List.cons_append, List.cons_append, afterComment, if_neg hopen,
      if_pos hclose, if_pos hdepth] at h ⊢
    rw [Option.some.injEq, List.append_cancel_right_eq] at h
    rw [h]
  | case5 depth c d tail hopen hclose hdepth ih =>
    rw [List.cons_append, List.cons_append, afterComment, if_neg hopen,
      if_pos hclose, if_neg hdepth] at h ⊢
    exact ih h (length_lt_of_left (afterComment_suffix h).2)
  | case6 depth c d tail hopen hclose ih =>
    rw [List.cons_append, List.cons_append, afterComment, if_neg hopen,
      if_neg hclose, ← List.cons_append] at h ⊢
    exact ih h (length_lt_of_left (afterComment_suffix h).2)

omit [CharTables] in
theorem isPrefixOf_append_of_le {pattern text : Text}
    (h : pattern.length ≤ text.length) (more : Text) :
    pattern.isPrefixOf (text ++ more) = pattern.isPrefixOf text := by
  rw [Bool.eq_iff_iff, List.isPrefixOf_iff_prefix, List.isPrefixOf_iff_prefix]
  constructor
  · intro hp
    exact List.prefix_of_prefix_length_le hp (List.prefix_append _ more) h
  · intro hp
    exact hp.trans (List.prefix_append _ more)

omit [CharTables] in
theorem afterText_swap {pattern text rest more : Text}
    (h : afterText pattern (text ++ more) = some (rest ++ more))
    (hne : pattern ≠ []) (other : Text) :
    afterText pattern (text ++ other) = some (rest ++ other) := by
  have hpos := List.length_pos_iff.mpr hne
  induction text with
  | nil =>
    obtain ⟨a, ha⟩ := afterText_split h
    have hlen := congrArg List.length ha
    simp only [List.nil_append, List.length_append] at hlen
    omega
  | cons c text ih =>
    obtain ⟨a, ha⟩ := afterText_split h
    rw [← List.append_assoc, List.append_cancel_right_eq] at ha
    have hlen : pattern.length ≤ (c :: text).length := by
      rw [ha]
      simp only [List.length_append]
      omega
    rw [List.cons_append, afterText, ← List.cons_append,
      isPrefixOf_append_of_le hlen] at h ⊢
    by_cases hp : pattern.isPrefixOf (c :: text)
    · rw [if_pos hp, List.drop_append_of_le_length hlen] at h ⊢
      rw [Option.some.injEq, List.append_cancel_right_eq] at h
      rw [h]
    · rw [if_neg hp] at h ⊢
      exact ih h

omit [CharTables] in
theorem takeWhile_append_of_stop {p : Char → Bool} {text : Text}
    (h : text.dropWhile p ≠ []) (more : Text) :
    (text ++ more).takeWhile p = text.takeWhile p ∧
      (text ++ more).dropWhile p = text.dropWhile p ++ more := by
  induction text with
  | nil => exact absurd rfl h
  | cons c text ih =>
    by_cases hc : p c
    · rw [List.dropWhile_cons_of_pos hc] at h
      obtain ⟨htake, hdrop⟩ := ih h
      simp [hc, htake, hdrop]
    · simp [hc]

omit [CharTables] in
/-- A word ends where it ends before other text. -/
theorem takeWhile_swap {p : Char → Bool} {text rest more : Text}
    (h : (text ++ more).dropWhile p = rest ++ more) (hne : rest ≠ [])
    (other : Text) :
    (text ++ other).takeWhile p = (text ++ more).takeWhile p ∧
      (text ++ other).dropWhile p = rest ++ other := by
  have hstop : text.dropWhile p ≠ [] := by
    intro hnil
    have hlen := congrArg List.length h
    have hpos := List.length_pos_iff.mpr hne
    have hle := (List.dropWhile_suffix p (l := more)).length_le
    rw [List.dropWhile_append_of_pos (List.dropWhile_eq_nil_iff.mp hnil),
      List.length_append] at hlen
    omega
  obtain ⟨htake, hdrop⟩ := takeWhile_append_of_stop hstop more
  obtain ⟨htake', hdrop'⟩ := takeWhile_append_of_stop hstop other
  rw [hdrop, List.append_cancel_right_eq] at h
  exact ⟨htake'.trans htake.symm, by rw [hdrop', h]⟩

theorem afterDollar_of_stop {rest body : Text} {c : Char}
    (h : rest.dropWhile isTagChar = c :: body) :
    afterDollar rest =
      if c = '$' then
        some ((afterText ('$' :: rest.takeWhile isTagChar ++ ['$'])
          body).getD [])
      else none := by
  rw [afterDollar, h]
  by_cases hc : c = '$'
  · subst hc
    rfl
  · rw [if_neg hc]
    split
    · rename_i heq
      exact absurd (List.cons.inj heq).1 hc
    · rfl

/-- What a dollar starts is decided by what stops its tag. -/
theorem afterDollar_append {rest body : Text} {c : Char}
    (h : rest.dropWhile isTagChar = c :: body) (more : Text) :
    afterDollar (rest ++ more) =
      if c = '$' then
        some ((afterText ('$' :: rest.takeWhile isTagChar ++ ['$'])
          (body ++ more)).getD [])
      else none := by
  obtain ⟨htake, hdrop⟩ :=
    takeWhile_append_of_stop (h ▸ List.cons_ne_nil c body) more
  rw [h, List.cons_append] at hdrop
  rw [afterDollar_of_stop hdrop, htake]

omit [CharTables] in
/-- What a marker of two characters decides is decided by the first two. -/
theorem isPrefixOf_pair_append (a b first second : Char) (tail more : Text) :
    [a, b].isPrefixOf (first :: (second :: tail ++ more)) =
      [a, b].isPrefixOf (first :: second :: tail) := by
  simp [List.isPrefixOf]

omit [CharTables] in
/-- What is left of a text is there, not made up. -/
theorem eq_some_of_getD {left : Option Text} {rest : Text}
    (h : left.getD [] = rest) (hne : rest ≠ []) : left = some rest := by
  cases left with
  | none => exact absurd h.symm hne
  | some left => rw [← h, Option.getD_some]

theorem length_afterDollar_le {rest after : Text}
    (h : afterDollar rest = some after) :
    after.length ≤ (rest.dropWhile isTagChar).length := by
  cases hstop : rest.dropWhile isTagChar with
  | nil =>
    rw [afterDollar, hstop] at h
    cases h
  | cons c body =>
    rw [afterDollar_of_stop hstop] at h
    split at h
    · rw [Option.some.injEq] at h
      cases hafter :
        afterText ('$' :: rest.takeWhile isTagChar ++ ['$']) body with
      | none =>
        rw [← h, hafter]
        exact Nat.zero_le _
      | some left =>
        obtain ⟨a, rfl⟩ := afterText_split hafter
        rw [← h, hafter, Option.getD_some, List.length_cons, List.length_append]
        omega
    · cases h

/-- A dollar with something behind its tag or word is read the same before other
text. -/
theorem afterDollar_swap_of_some {after rest more : Text}
    (h : afterDollar (after ++ more) = some (rest ++ more)) (hne : rest ≠ [])
    (other : Text) : afterDollar (after ++ other) = some (rest ++ other) := by
  cases hstop : after.dropWhile isTagChar with
  | nil =>
    have hle := length_afterDollar_le h
    have hpos := List.length_pos_iff.mpr hne
    have hmore := (List.dropWhile_suffix isTagChar (l := more)).length_le
    rw [List.dropWhile_append_of_pos (List.dropWhile_eq_nil_iff.mp hstop),
      List.length_append] at hle
    omega
  | cons c body =>
    rw [afterDollar_append hstop] at h ⊢
    split at h
    · rename_i hc
      rw [Option.some.injEq] at h
      have hafter :=
        eq_some_of_getD h (List.append_ne_nil_of_left_ne_nil hne more)
      rw [if_pos hc, afterText_swap hafter (by simp) other]
      rfl
    · cases h

theorem afterDollar_swap_of_none {after rest more : Text}
    (h : afterDollar (after ++ more) = none)
    (hword : ('$' :: after ++ more).dropWhile isIdentChar = rest ++ more)
    (hne : rest ≠ []) (other : Text) : afterDollar (after ++ other) = none := by
  cases hstop : after.dropWhile isTagChar with
  | nil =>
    have hall : ∀ c ∈ '$' :: after, isIdentChar c := by
      intro c hc
      rcases List.mem_cons.mp hc with rfl | hc
      · exact isIdentChar_dollar
      · exact isIdentChar_of_tag (List.dropWhile_eq_nil_iff.mp hstop c hc)
    have hlen := congrArg List.length hword
    have hpos := List.length_pos_iff.mpr hne
    have hmore := (List.dropWhile_suffix isIdentChar (l := more)).length_le
    rw [List.dropWhile_append_of_pos hall, List.length_append] at hlen
    omega
  | cons c body =>
    rw [afterDollar_append hstop] at h ⊢
    split at h
    · cases h
    · rename_i hc
      rw [if_neg hc]

/-- A round that leaves something of a part does the same with other text behind
the part. -/
theorem lexed_swap {text rest more : Text} {tokens : List Token}
    (h : lexed (text ++ more) = (tokens, some (rest ++ more))) (hne : rest ≠ [])
    (other : Text) :
    lexed (text ++ other) = (tokens, some (rest ++ other)) := by
  have hlt := length_lt_of_left (lexed_suffix h).2
  have hpos := List.length_pos_iff.mpr hne
  have hleft : rest ++ more ≠ [] := List.append_ne_nil_of_left_ne_nil hne more
  rcases text with _ | ⟨first, _ | ⟨second, tail⟩⟩
  · cases hlt
  · simp only [List.length_singleton] at hlt
    omega
  have hdashes := (isPrefixOf_pair_append '-' '-' first second tail other).trans
    (isPrefixOf_pair_append '-' '-' first second tail more).symm
  have hslash := (isPrefixOf_pair_append '/' '*' first second tail other).trans
    (isPrefixOf_pair_append '/' '*' first second tail more).symm
  rw [List.cons_append] at h ⊢
  generalize second :: tail = after at h hdashes hslash ⊢
  by_cases hline : "--".toList.isPrefixOf (first :: (after ++ more))
  · have hline' : "--".toList.isPrefixOf (first :: (after ++ other)) :=
      hdashes.trans hline
    rw [lexed, if_pos hline, ← List.cons_append] at h
    rw [lexed, if_pos hline', ← List.cons_append, afterText_swap
      (Prod.mk.inj h).2 (by simp) other, (Prod.mk.inj h).1]
  have hline' : ¬ "--".toList.isPrefixOf (first :: (after ++ other)) := by
    intro hp
    exact hline (hdashes.symm.trans hp)
  by_cases hblock : "/*".toList.isPrefixOf (first :: (after ++ more))
  · have hblock' : "/*".toList.isPrefixOf (first :: (after ++ other)) :=
      hslash.trans hblock
    rw [lexed, if_neg hline, if_pos hblock, Prod.mk.injEq, Option.some.injEq]
      at h
    have hafter := eq_some_of_getD h.2 hleft
    rw [← List.cons_append] at hafter
    rw [lexed, if_neg hline', if_pos hblock', ← List.cons_append,
      afterComment_swap hafter hne other, h.1]
    rfl
  have hblock' : ¬ "/*".toList.isPrefixOf (first :: (after ++ other)) := by
    intro hp
    exact hblock (hslash.symm.trans hp)
  by_cases hsingle : first = '\''
  · rw [lexed, if_neg hline, if_neg hblock, if_pos hsingle, Prod.mk.injEq,
      Option.some.injEq] at h
    rw [lexed, if_neg hline', if_neg hblock', if_pos hsingle,
      afterQuoted_swap (eq_some_of_getD h.2 hleft) hne other, h.1]
    rfl
  by_cases hdouble : first = '"'
  · rw [lexed, if_neg hline, if_neg hblock, if_neg hsingle, if_pos hdouble,
      Prod.mk.injEq, Option.some.injEq] at h
    rw [lexed, if_neg hline', if_neg hblock', if_neg hsingle, if_pos hdouble,
      afterQuoted_swap (eq_some_of_getD h.2 hleft) hne other, h.1]
    rfl
  by_cases hdollar : first = '$'
  · rw [lexed, if_neg hline, if_neg hblock, if_neg hsingle, if_neg hdouble,
      if_pos hdollar] at h
    rw [lexed, if_neg hline', if_neg hblock', if_neg hsingle, if_neg hdouble,
      if_pos hdollar]
    cases hafter : afterDollar (after ++ more) with
    | some left =>
      rw [hafter] at h
      cases h
      rw [afterDollar_swap_of_some hafter hne other]
    | none =>
      rw [hafter, Prod.mk.injEq, Option.some.injEq, ← List.cons_append] at h
      obtain ⟨htake, hdrop⟩ := takeWhile_swap h.2 hne other
      rw [afterDollar_swap_of_none hafter (hdollar ▸ h.2) hne other,
        ← List.cons_append, htake, hdrop, h.1]
  rcases lexed_symbol_or_word hsingle hdouble hdollar with
    ⟨token, hsymbol⟩ | ⟨-, hword⟩
  · rw [hsymbol _ hline hblock, Prod.mk.injEq, Option.some.injEq,
      List.append_cancel_right_eq] at h
    rw [hsymbol _ hline' hblock', h.1, h.2]
  · rw [hword _ hline hblock, Prod.mk.injEq, Option.some.injEq,
      ← List.cons_append] at h
    obtain ⟨htake, hdrop⟩ := takeWhile_swap h.2 hne other
    rw [hword _ hline' hblock', ← List.cons_append, htake, hdrop, h.1]

theorem trimStart_append {text : Text} (h : trimStart text ≠ []) (more : Text) :
    trimStart (text ++ more) = trimStart text ++ more :=
  (takeWhile_append_of_stop h more).2

/-- Rounds that leave something of a part are the same with other text behind
the part. -/
theorem Reaches.swap {text rest more : Text} {tokens : List Token}
    (h : Reaches (text ++ more) tokens (rest ++ more)) (hne : rest ≠ [])
    (other : Text) : Reaches (text ++ other) tokens (rest ++ other) := by
  generalize hwhole : text ++ more = whole at h
  generalize hlast : rest ++ more = last at h
  induction h generalizing text with
  | refl whole =>
    rw [← hwhole, List.append_cancel_right_eq] at hlast
    rw [hlast]
    exact .refl _
  | @round whole left last tokens _ h hrest ih =>
    subst hwhole hlast
    obtain ⟨front, hfront⟩ := hrest.suffix
    rw [← List.append_assoc] at hfront
    have hleft : front ++ rest ≠ [] :=
      List.append_ne_nil_of_right_ne_nil front hne
    rw [tokenizeStep_eq, Option.some.injEq] at h
    have htrim : trimStart text ≠ [] := by
      intro hnil
      have hspaces := List.dropWhile_eq_nil_iff.mp hnil
      have hlen := (lexed_suffix h).2
      rw [trimStart, List.dropWhile_append_of_pos hspaces, ← hfront] at hlen
      have hle := (List.dropWhile_suffix isWhitespace (l := more)).length_le
      rw [List.length_append] at hlen
      omega
    rw [trimStart_append htrim, ← hfront] at h
    have hround := lexed_swap h hleft other
    rw [← trimStart_append htrim] at hround
    refine .round ?_ (ih hfront rfl)
    rw [tokenizeStep_eq, hround]

/-- Rounds that leave something are the same before more text. -/
theorem Reaches.append {text rest : Text} {tokens : List Token}
    (h : Reaches text tokens rest) (hne : rest ≠ []) (more : Text) :
    Reaches (text ++ more) tokens (rest ++ more) := by
  have hbare : Reaches (text ++ []) tokens (rest ++ []) := by
    rwa [List.append_nil, List.append_nil]
  exact hbare.swap hne more

end Tempr.Intel
