import Tempr.Intel.LexerRounds

/-!
# Literals and comments

What the completion lexer skips: texts in single quotes and in dollar quotes,
and comments. Nothing of a body is a token, whatever is written in it, as long
as the literal or the comment stays complete.
-/

namespace Tempr.Intel

/-! ## Bodies -/

/-- A text in which every quote is doubled. -/
inductive QuotedBody (quote : Char) : Text → Prop
  | nil : QuotedBody quote []
  | doubled {body : Text} (hbody : QuotedBody quote body) :
      QuotedBody quote (quote :: quote :: body)
  | char {c : Char} {body : Text} (hc : c ≠ quote)
      (hbody : QuotedBody quote body) : QuotedBody quote (c :: body)

/-- A text whose comments are complete, before the marker that closes it. A star
and a slash that stand together are a marker, and the star of the marker behind
the text counts. -/
inductive CommentBody : Text → Prop
  | nil : CommentBody []
  | char {c : Char} {body : Text}
      (hopen : ¬ (c = '/' ∧ (body ++ ['*']).head? = some '*'))
      (hclose : ¬ (c = '*' ∧ (body ++ ['*']).head? = some '/'))
      (hbody : CommentBody body) : CommentBody (c :: body)
  | nested {inner body : Text} (hinner : CommentBody inner)
      (hbody : CommentBody body) :
      CommentBody ('/' :: '*' :: (inner ++ '*' :: '/' :: body))

/-- Before the delimiter there is no other one, not even one that overlaps
it. -/
def DelimitedBody (delimiter body : Text) : Prop :=
  ∀ a b, body ++ delimiter = a ++ delimiter ++ b → b = []

/-! ## Quotes -/

theorem afterQuoted_of_quotedBody {quote : Char} {body : Text}
    (hbody : QuotedBody quote body) {rest : Text}
    (hrest : rest.head? ≠ some quote) :
    afterQuoted quote (body ++ quote :: rest) = some rest := by
  induction hbody with
  | nil =>
    cases rest with
    | nil => simp [afterQuoted]
    | cons d rest =>
      have hd : d ≠ quote := fun hd => hrest (congrArg some hd)
      simp [afterQuoted, hd]
  | doubled hbody ih =>
    rw [List.cons_append, List.cons_append, afterQuoted, if_pos rfl, if_pos rfl,
      ih]
  | @char c body hc hbody ih =>
    cases body with
    | nil => simpa [afterQuoted, hc] using ih
    | cons d body => simpa [afterQuoted, hc] using ih

theorem exists_quotedBody {quote : Char} {chars rest : Text}
    (h : afterQuoted quote chars = some rest) :
    ∃ body, QuotedBody quote body ∧ chars = body ++ quote :: rest := by
  induction chars using afterQuoted.induct quote with
  | case1 => cases h
  | case2 =>
    simp only [afterQuoted, if_true, Option.some.injEq] at h
    exact ⟨[], .nil, by rw [← h]; rfl⟩
  | case3 c hc => simp [afterQuoted, hc] at h
  | case4 tail ih =>
    simp only [afterQuoted, if_true] at h
    obtain ⟨body, hbody, rfl⟩ := ih h
    exact ⟨quote :: quote :: body, .doubled hbody, rfl⟩
  | case5 d tail hd =>
    simp only [afterQuoted, if_true, if_neg hd, Option.some.injEq] at h
    exact ⟨[], .nil, by rw [← h]; rfl⟩
  | case6 c d tail hc ih =>
    simp only [afterQuoted, if_neg hc] at h
    obtain ⟨body, hbody, hchars⟩ := ih h
    exact ⟨c :: body, .char hc hbody, by rw [hchars]; rfl⟩

/-- A text in quotes is complete just when the lexer reads it to its end. -/
theorem quotedBody_iff {quote : Char} {body : Text} :
    QuotedBody quote body ↔ afterQuoted quote (body ++ [quote]) = some [] := by
  constructor
  · intro hbody
    exact afterQuoted_of_quotedBody hbody (by simp)
  · intro h
    obtain ⟨read, hread, hsplit⟩ := exists_quotedBody h
    rwa [List.append_cancel_right hsplit]

/-! ## Comments -/

/-- What follows a character of a comment is seen up to the star of the
marker. -/
theorem head?_of_marker {body rest tail : Text} {d : Char}
    (h : body ++ '*' :: '/' :: rest = d :: tail) :
    (body ++ ['*']).head? = some d := by
  have hhead := congrArg List.head? h
  cases body with
  | nil => exact hhead
  | cons c body => exact hhead

/-- Behind a body the comment goes on at the depth around it. -/
theorem afterComment_of_commentBody {body : Text} (hbody : CommentBody body)
    (depth : ℕ) (rest : Text) :
    afterComment (depth + 1) (body ++ '*' :: '/' :: rest) =
      if depth = 0 then some rest else afterComment depth rest := by
  induction hbody generalizing depth rest with
  | nil =>
    rw [List.nil_append, afterComment, if_neg (by decide), if_pos ⟨rfl, rfl⟩,
      Nat.add_sub_cancel]
  | @char c body hopen hclose hbody ih =>
    obtain ⟨d, tail, htail⟩ : ∃ d tail,
        body ++ '*' :: '/' :: rest = d :: tail :=
      List.exists_cons_of_ne_nil (by simp)
    rw [head?_of_marker htail] at hopen hclose
    have hopen' : ¬ (c = '/' ∧ d = '*') := fun h =>
      hopen ⟨h.1, congrArg some h.2⟩
    have hclose' : ¬ (c = '*' ∧ d = '/') := fun h =>
      hclose ⟨h.1, congrArg some h.2⟩
    rw [List.cons_append, htail, afterComment, if_neg hopen', if_neg hclose',
      ← htail, ih]
  | @nested inner body hinner hbody ihinner ihbody =>
    have hsplit : '/' :: '*' :: (inner ++ '*' :: '/' :: body) ++
          '*' :: '/' :: rest =
        '/' :: '*' ::
          (inner ++ '*' :: '/' :: (body ++ '*' :: '/' :: rest)) := by
      simp
    rw [hsplit, afterComment, if_pos ⟨rfl, rfl⟩, ihinner,
      if_neg (Nat.succ_ne_zero _), ihbody]

/-- What closes a comment stands behind a body. The rounds are those of the
lexer, and a comment inside is read before what follows it. -/
theorem exists_commentBody (n : ℕ) : ∀ {depth : ℕ} {chars rest : Text},
    chars.length ≤ n → afterComment (depth + 1) chars = some rest →
    ∃ body tail, CommentBody body ∧ chars = body ++ '*' :: '/' :: tail ∧
      (if depth = 0 then some tail else afterComment depth tail) =
        some rest := by
  induction n with
  | zero =>
    intro depth chars rest hlen h
    rw [List.length_eq_zero_iff.mp (Nat.le_zero.mp hlen)] at h
    cases h
  | succ n ih =>
    intro depth chars rest hlen h
    rcases chars with _ | ⟨c, _ | ⟨d, chars⟩⟩
    · cases h
    · cases h
    simp only [List.length_cons] at hlen
    rw [afterComment] at h
    by_cases hopen : c = '/' ∧ d = '*'
    · rw [if_pos hopen] at h
      obtain ⟨rfl, rfl⟩ := hopen
      obtain ⟨inner, tail, hinner, rfl, htail⟩ := ih (by omega) h
      rw [if_neg (Nat.succ_ne_zero depth)] at htail
      simp only [List.length_append, List.length_cons] at hlen
      obtain ⟨body, last, hbody, rfl, hlast⟩ := ih (by omega) htail
      exact ⟨_, last, .nested hinner hbody, by simp, hlast⟩
    rw [if_neg hopen] at h
    by_cases hclose : c = '*' ∧ d = '/'
    · rw [if_pos hclose] at h
      obtain ⟨rfl, rfl⟩ := hclose
      exact ⟨[], chars, .nil, rfl, h⟩
    · rw [if_neg hclose] at h
      obtain ⟨body, tail, hbody, hchars, htail⟩ := ih (by simp; omega) h
      have hd := head?_of_marker hchars.symm
      refine ⟨c :: body, tail, .char ?_ ?_ hbody, by rw [hchars]; rfl, htail⟩
      · rw [hd, Option.some.injEq]
        exact hopen
      · rw [hd, Option.some.injEq]
        exact hclose

/-- A comment is complete just when the lexer reads it to its end. -/
theorem commentBody_iff {body : Text} :
    CommentBody body ↔ afterComment 1 (body ++ ['*', '/']) = some [] := by
  constructor
  · intro hbody
    exact afterComment_of_commentBody hbody 0 []
  · intro h
    obtain ⟨read, tail, hread, hsplit, htail⟩ := exists_commentBody _ le_rfl h
    rw [if_pos rfl, Option.some.injEq] at htail
    subst htail
    rwa [List.append_cancel_right hsplit]

/-! ## Dollar quotes -/

theorem DelimitedBody.tail {delimiter body : Text} {c : Char}
    (h : DelimitedBody delimiter (c :: body)) :
      DelimitedBody delimiter body := by
  intro a b hsplit
  apply h (c :: a) b
  rw [List.cons_append, hsplit]
  rfl

theorem afterText_of_delimitedBody {delimiter body : Text}
    (hne : delimiter ≠ [])
    (hbody : DelimitedBody delimiter body) (rest : Text) :
    afterText delimiter (body ++ delimiter ++ rest) = some rest := by
  induction body with
  | nil =>
    obtain ⟨d, tail, rfl⟩ := List.exists_cons_of_ne_nil hne
    have hfound : (d :: tail).isPrefixOf (d :: (tail ++ rest)) :=
      List.isPrefixOf_iff_prefix.mpr ⟨rest, rfl⟩
    rw [List.nil_append, List.cons_append, afterText, if_pos hfound,
      ← List.cons_append, List.drop_left]
  | cons c body ih =>
    have hnot : ¬ delimiter.isPrefixOf (c :: (body ++ delimiter) ++ rest) := by
      have hle : delimiter.length ≤ (c :: (body ++ delimiter)).length := by
        simp only [List.length_cons, List.length_append]
        omega
      rw [isPrefixOf_append_of_le hle, List.isPrefixOf_iff_prefix]
      rintro ⟨tail, htail⟩
      have hnil := hbody [] tail htail.symm
      rw [hnil, List.append_nil] at htail
      have hlen := congrArg List.length htail
      simp only [List.length_cons, List.length_append] at hlen
      omega
    rw [List.cons_append] at hnot
    rw [List.cons_append, List.cons_append, afterText, if_neg hnot,
      ih hbody.tail]

section Lexer

variable [CharTables]

/-! ## What is skipped -/

/-- The kinds of text that the lexer skips. -/
inductive Skipped
  | singleQuoted
  | dollarQuoted (tag : Text) (htag : ∀ c ∈ tag, isTagChar c)
  | lineComment
  | blockComment

namespace Skipped

def opening : Skipped → Text
  | singleQuoted => ['\'']
  | dollarQuoted tag _ => '$' :: tag ++ ['$']
  | lineComment => ['-', '-']
  | blockComment => ['/', '*']

/-- A comment in a line ends before the end of the line. -/
def closing : Skipped → Text
  | singleQuoted => ['\'']
  | dollarQuoted tag _ => '$' :: tag ++ ['$']
  | lineComment => []
  | blockComment => ['*', '/']

def written (kind : Skipped) (body : Text) : Text :=
  kind.opening ++ body ++ kind.closing

/-- The bodies with which the text is complete. -/
def IsBody (body : Text) : Skipped → Prop
  | singleQuoted => QuotedBody '\'' body
  | dollarQuoted tag _ => DelimitedBody ('$' :: tag ++ ['$']) body
  | lineComment => '\n' ∉ body
  | blockComment => CommentBody body

/-- What can follow: after a quote no other one, and after a comment in a line
the end of the line. -/
def Continues (rest : Text) : Skipped → Prop
  | singleQuoted => rest.head? ≠ some '\''
  | lineComment => rest = [] ∨ rest.head? = some '\n'
  | _ => True

theorem opening_ne_nil (kind : Skipped) : kind.opening ≠ [] := by
  cases kind with
  | singleQuoted => exact List.cons_ne_nil _ _
  | dollarQuoted tag htag => exact List.cons_ne_nil _ _
  | lineComment => exact List.cons_ne_nil _ _
  | blockComment => exact List.cons_ne_nil _ _

end Skipped

theorem not_isTagChar_dollar : ¬ isTagChar '$' := by
  rw [isTagChar, CharTables.isAlphabetic_ascii '$' (by decide),
    CharTables.isNumeric_ascii '$' (by decide)]
  decide

theorem afterDollar_of_delimitedBody {tag body : Text}
    (htag : ∀ c ∈ tag, isTagChar c)
    (hbody : DelimitedBody ('$' :: tag ++ ['$']) body) (rest : Text) :
    afterDollar (tag ++ '$' :: (body ++ ('$' :: tag ++ ['$']) ++ rest)) =
      some rest := by
  have hdrop : (tag ++ '$' :: (body ++ ('$' :: tag ++ ['$']) ++ rest)).dropWhile
      isTagChar = '$' :: (body ++ ('$' :: tag ++ ['$']) ++ rest) := by
    rw [List.dropWhile_append_of_pos htag,
      List.dropWhile_cons_of_neg not_isTagChar_dollar]
  have htake : (tag ++ '$' :: (body ++ ('$' :: tag ++ ['$']) ++ rest)).takeWhile
      isTagChar = tag := by
    rw [List.takeWhile_append_of_pos htag,
      List.takeWhile_cons_of_neg not_isTagChar_dollar, List.append_nil]
  rw [afterDollar_of_stop hdrop, if_pos rfl, htake,
    afterText_of_delimitedBody (by simp) hbody rest, Option.getD_some]

theorem isWhitespace_newline : isWhitespace '\n' := by
  rw [CharTables.isWhitespace_ascii '\n' (by decide)]
  decide

/-- The tokens of a text do not depend on the spaces before it. -/
theorem tokensOf_of_trimStart {text other : Text}
    (h : trimStart text = trimStart other) :
    tokensOf text = tokensOf other := by
  rcases hlexed : lexed (trimStart other) with ⟨tokens, _ | rest⟩
  · rw [tokensOf_none hlexed, tokensOf_none (h ▸ hlexed)]
  · rw [tokensOf_some hlexed, tokensOf_some (h ▸ hlexed)]

theorem tokensOf_nil : tokensOf [] = [] := tokensOf_none rfl

theorem lexed_singleQuote (after : Text) :
    lexed ('\'' :: after) = ([], some ((afterQuoted '\'' after).getD [])) := by
  rw [lexed, if_neg (by simp [List.isPrefixOf]),
    if_neg (by simp [List.isPrefixOf]), if_pos rfl]

theorem lexed_dollar {after rest : Text} (h : afterDollar after = some rest) :
    lexed ('$' :: after) = ([], some rest) := by
  rw [lexed, if_neg (by simp [List.isPrefixOf]),
    if_neg (by simp [List.isPrefixOf]),
    if_neg (by decide), if_neg (by decide), if_pos rfl, h]

theorem lexed_dashes (after : Text) :
    lexed ('-' :: '-' :: after) = ([], afterText ['\n'] after) := by
  rw [lexed, if_pos (by simp [List.isPrefixOf])]
  simp [afterText, List.isPrefixOf]

theorem lexed_slash (after : Text) :
    lexed ('/' :: '*' :: after) =
      ([], some ((afterComment 1 after).getD [])) := by
  rw [lexed, if_neg (by simp [List.isPrefixOf]),
    if_pos (by simp [List.isPrefixOf]), afterComment, if_pos ⟨rfl, rfl⟩]

omit [CharTables] in
/-- The line ends where the line of the text behind it does. -/
theorem afterText_newline_append {body : Text} (hbody : '\n' ∉ body)
    (rest : Text) :
    afterText ['\n'] (body ++ rest) = afterText ['\n'] rest := by
  induction body with
  | nil => rfl
  | cons c body ih =>
    have hc : ¬ ['\n'].isPrefixOf (c :: (body ++ rest)) := by
      intro h
      obtain ⟨tail, htail⟩ := List.isPrefixOf_iff_prefix.mp h
      exact hbody ((List.cons.inj htail).1 ▸ List.mem_cons_self)
    rw [List.cons_append, afterText, if_neg hc]
    exact ih fun hmem => hbody (List.mem_cons_of_mem c hmem)

/-- A complete text of the kind is read in one round, without a token. -/
theorem tokensOf_written {kind : Skipped} {left body rest : Text}
    (hbody : kind.IsBody body) (hrest : kind.Continues rest)
    (hleft : trimStart left = kind.written body ++ rest) :
    tokensOf left = tokensOf rest := by
  cases kind with
  | singleQuoted =>
    have hbody' := afterQuoted_of_quotedBody hbody hrest
    have hround : lexed (trimStart left) = ([], some rest) := by
      have hwritten : Skipped.singleQuoted.written body ++ rest =
          '\'' :: (body ++ '\'' :: rest) := by
        simp [Skipped.written, Skipped.opening, Skipped.closing]
      rw [hleft, hwritten, lexed_singleQuote, hbody', Option.getD_some]
    exact tokensOf_some hround
  | dollarQuoted tag htag =>
    have hround : lexed (trimStart left) = ([], some rest) := by
      have hwritten : (Skipped.dollarQuoted tag htag).written body ++ rest =
          '$' :: (tag ++ '$' :: (body ++ ('$' :: tag ++ ['$']) ++ rest)) := by
        simp [Skipped.written, Skipped.opening, Skipped.closing]
      rw [hleft, hwritten]
      exact lexed_dollar (afterDollar_of_delimitedBody htag hbody rest)
    exact tokensOf_some hround
  | lineComment =>
    have hround : lexed (trimStart left) = ([], afterText ['\n'] rest) := by
      have hwritten : Skipped.lineComment.written body ++ rest =
          '-' :: '-' :: (body ++ rest) := by
        simp [Skipped.written, Skipped.opening, Skipped.closing]
      rw [hleft, hwritten, lexed_dashes, afterText_newline_append hbody]
    rcases hrest with rfl | hnewline
    · rw [tokensOf_none hround, tokensOf_nil]
    · obtain ⟨tail, rfl⟩ : ∃ tail, rest = '\n' :: tail := by
        cases rest with
        | nil => cases hnewline
        | cons c tail => exact ⟨tail, by rw [Option.some.inj hnewline]⟩
      have hspace : trimStart ('\n' :: tail) = trimStart tail :=
        List.dropWhile_cons_of_pos isWhitespace_newline
      have hafter : afterText ['\n'] ('\n' :: tail) = some tail := by
        simp [afterText, List.isPrefixOf]
      rw [hafter] at hround
      rw [tokensOf_some hround, tokensOf_of_trimStart hspace]
      rfl
  | blockComment =>
    have hround : lexed (trimStart left) = ([], some rest) := by
      have hwritten : Skipped.blockComment.written body ++ rest =
          '/' :: '*' :: (body ++ '*' :: '/' :: rest) := by
        simp [Skipped.written, Skipped.opening, Skipped.closing]
      rw [hleft, hwritten, lexed_slash, afterComment_of_commentBody hbody,
        if_pos rfl, Option.getD_some]
    exact tokensOf_some hround

/-! ## Other bodies -/

/-- The rounds of the lexer over `whole` come to a token, or to something that
is skipped, that begins where `text` is left. -/
def ComesTo (whole text : Text) : Prop :=
  ∃ tokens left, Reaches whole tokens left ∧ trimStart left = text

/-- The rounds before the literal or comment do not see its body. -/
theorem Reaches.exists_other {kind : Skipped} {front body rest : Text}
    (hcomes : ComesTo (front ++ kind.written body ++ rest)
      (kind.written body ++ rest)) (other : Text) :
    ∃ tokens left left',
      Reaches (front ++ kind.written body ++ rest) tokens left ∧
        trimStart left = kind.written body ++ rest ∧
      Reaches (front ++ kind.written other ++ rest) tokens left' ∧
        trimStart left' = kind.written other ++ rest := by
  obtain ⟨tokens, left, hreaches, htrim⟩ := hcomes
  obtain ⟨spaces, hspaces⟩ := trimStart_suffix left
  -- the opening belongs to the part that is read the same
  have hparts : ∀ text : Text, kind.written text ++ rest =
      kind.opening ++ (text ++ kind.closing ++ rest) := by
    intro text
    simp [Skipped.written]
  have hwhole : ∀ text : Text, front ++ kind.written text ++ rest =
      front ++ kind.opening ++ (text ++ kind.closing ++ rest) := by
    intro text
    rw [List.append_assoc, hparts, List.append_assoc front]
  have hleft : left = spaces ++ kind.opening ++
    (body ++ kind.closing ++ rest) := by
    rw [← hspaces, htrim, hparts, List.append_assoc spaces]
  have hne : spaces ++ kind.opening ≠ [] :=
    List.append_ne_nil_of_right_ne_nil _ kind.opening_ne_nil
  have hreaches' := hreaches
  have htrim' := htrim
  rw [hwhole, hleft] at hreaches'
  rw [hleft, hparts] at htrim'
  refine ⟨tokens, left, _, hreaches, htrim,
    hwhole other ▸ hreaches'.swap hne (other ++ kind.closing ++ rest), ?_⟩
  rw [hparts]
  exact (takeWhile_swap htrim' kind.opening_ne_nil
    (other ++ kind.closing ++ rest)).2

/-- With another body of a literal or comment the tokens are the same, and with
them what is expected at the end. -/
theorem tokenize_otherBody {kind : Skipped} {front body other rest : Text}
    (hbody : kind.IsBody body) (hother : kind.IsBody other)
    (hrest : kind.Continues rest)
    (hcomes : ComesTo (front ++ kind.written body ++ rest)
      (kind.written body ++ rest)) :
    tokenize (front ++ kind.written other ++ rest) =
        tokenize (front ++ kind.written body ++ rest) ∧
      (tokenize (front ++ kind.written other ++ rest)).map classify =
        (tokenize (front ++ kind.written body ++ rest)).map classify := by
  obtain ⟨tokens, left, left', hreaches, htrim, hreaches', htrim'⟩ :=
    Reaches.exists_other hcomes other
  have htokens : tokensOf (front ++ kind.written other ++ rest) =
      tokensOf (front ++ kind.written body ++ rest) := by
    calc tokensOf (front ++ kind.written other ++ rest)
        = tokens ++ tokensOf left' := hreaches'.tokensOf_eq
      _ = tokens ++ tokensOf rest :=
        by rw [tokensOf_written hother hrest htrim']
      _ = tokens ++ tokensOf left := by rw [tokensOf_written hbody hrest htrim]
      _ = tokensOf (front ++ kind.written body ++ rest) :=
        hreaches.tokensOf_eq.symm
  have hsame : tokenize (front ++ kind.written other ++ rest) =
      tokenize (front ++ kind.written body ++ rest) := by
    rw [tokenize_eq, tokenize_eq, htokens]
  exact ⟨hsame, by rw [hsame]⟩

end Lexer

section Sample

local instance charsSkipped : CharTables := CharTables.ascii

/-- A comment in a comment, and one with keywords and quotes. -/
theorem tokenize_otherBody_nested :
    tokenize ("select ".toList ++
          Skipped.blockComment.written " from ' $a$ ; ".toList ++ " 1".toList) =
        tokenize ("select ".toList ++
          Skipped.blockComment.written " /**/ ".toList ++ " 1".toList) ∧
      (tokenize ("select ".toList ++ Skipped.blockComment.written
          " from ' $a$ ; ".toList ++ " 1".toList)).map classify =
        (tokenize ("select ".toList ++ Skipped.blockComment.written
          " /**/ ".toList ++ " 1".toList)).map classify := by
  have hround : tokenizeStep ("select ".toList ++
        Skipped.blockComment.written " /**/ ".toList ++ " 1".toList) =
      some ([.word "select".toList], some " /* /**/ */ 1".toList) := by
    decide +kernel
  have hcomes : ComesTo ("select ".toList ++
        Skipped.blockComment.written " /**/ ".toList ++ " 1".toList)
      (Skipped.blockComment.written " /**/ ".toList ++ " 1".toList) :=
    ⟨_, _, .round hround (.refl _), by decide +kernel⟩
  have hbody : Skipped.blockComment.IsBody " /**/ ".toList :=
    commentBody_iff.mpr (by decide +kernel)
  have hother : Skipped.blockComment.IsBody " from ' $a$ ; ".toList :=
    commentBody_iff.mpr (by decide +kernel)
  exact tokenize_otherBody hbody hother trivial hcomes

end Sample

end Tempr.Intel
