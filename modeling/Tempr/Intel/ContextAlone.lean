import Tempr.Editor.LineOps
import Tempr.Intel.CursorWord
import Tempr.Intel.Requests

/-!
# The context of a fragment after a statement

The statement at the cursor starts where the last scope does. A fragment after a
separator that has no scope of its own is read together with the statement
before it; here is what this changes in the context of the cursor.
-/

namespace Tempr.Intel

open Tempr.Editor (ByteRange Rope Buffer)
open Tempr.Editor.Rope (lenBytes)

/-! ## Tokens -/

/-- The open parentheses after one more token. -/
def opened (depth : ℕ) : Token → ℕ
  | .open => depth + 1
  | .close => depth - 1
  | _ => depth

/-- The closed parentheses before one more token. -/
def closed (depth : ℕ) : Token → ℕ
  | .close => depth + 1
  | .open => depth - 1
  | _ => depth

/-- The closing parentheses among the tokens that none of them opens. -/
def unopened (tokens : List Token) : ℕ :=
  tokens.reverse.foldl closed 0

/-- The last clause keyword outside of parentheses, where so many parentheses are
closed after the tokens. -/
def clauseBefore (depth : ℕ) (tokens : List Token) : Option Text :=
  nearestClauseFrom depth tokens.reverse

/-- Does a comma after this clause keyword ask for a name, of a relation or of a
CTE? -/
def AsksName (clause : Option Text) : Prop :=
  ∃ word ∈ ["from", "join", "update", "into", "with"].map String.toList,
    clause = some word

instance (clause : Option Text) : Decidable (AsksName clause) :=
  inferInstanceAs (Decidable (∃ word ∈ _, _))

/-- Do the tokens of a fragment ask for the same after those of a statement? Only
a comma and a closing parenthesis that are outside of the fragment's parentheses
look further back: how many parentheses the statement leaves open, which clause
is its last, and whether it begins with `WITH`. -/
def AsksSame (statement fragment : List Token) : Prop :=
  match fragment.getLast? with
  | none => False
  | some .comma =>
      0 < parenDepth fragment ∨
        if unopened fragment < parenDepth statement then
          ¬ AsksName (nearestClause fragment)
        else
          nearestClause fragment ≠ none ∨
            ¬ AsksName (clauseBefore (unopened fragment) statement)
  | some .close =>
      0 < parenDepth fragment ∨
        (startsWithWith fragment = true ↔
          parenDepth statement ≤ unopened fragment ∧
            startsWithWith statement = true)
  | some _ => True

theorem parenDepth_eq (tokens : List Token) :
    parenDepth tokens = tokens.foldl opened 0 := by
  rfl

theorem unopened_cons (token : Token) (tokens : List Token) :
    unopened (token :: tokens) = closed (unopened tokens) token := by
  rw [unopened, List.reverse_cons, List.foldl_append]
  rfl

/-- The parentheses that are open after a list of tokens, where some are open
before it. -/
theorem foldl_opened (depth : ℕ) (tokens : List Token) :
    tokens.foldl opened depth =
      depth - unopened tokens + parenDepth tokens := by
  rw [parenDepth_eq]
  induction tokens generalizing depth with
  | nil => rfl
  | cons token tokens ih =>
    rw [List.foldl_cons, List.foldl_cons, ih, ih (opened 0 token),
      unopened_cons]
    cases token <;> simp only [opened, closed] <;> omega

theorem parenDepth_append (statement fragment : List Token) :
    parenDepth (statement ++ fragment) =
      parenDepth statement - unopened fragment + parenDepth fragment := by
  rw [parenDepth_eq, List.foldl_append]
  exact foldl_opened _ fragment

/-- Looked for from the end, a clause is found in the fragment or in what is
before it. -/
theorem nearestClauseFrom_append (depth : ℕ) (later earlier : List Token) :
    nearestClauseFrom depth (later ++ earlier) =
      (nearestClauseFrom depth later).or
        (nearestClauseFrom (later.foldl closed depth) earlier) := by
  induction later generalizing depth with
  | nil => rfl
  | cons token later ih =>
    cases token with
    | word word =>
      rw [List.cons_append, nearestClauseFrom, nearestClauseFrom, ih]
      split
      · rfl
      · rfl
    | quoted => exact ih depth
    | dot => exact ih depth
    | comma => exact ih depth
    | «open» => exact ih (depth - 1)
    | close => exact ih (depth + 1)
    | other => exact ih depth

theorem nearestClause_append (statement fragment : List Token) :
    nearestClause (statement ++ fragment) =
      (nearestClause fragment).or
        (clauseBefore (unopened fragment) statement) := by
  rw [nearestClause, List.reverse_append]
  exact nearestClauseFrom_append 0 fragment.reverse statement.reverse

/-- After a comma outside of parentheses the clause keyword decides, and only the
ones before a name ask for other than an expression. -/
theorem exists_classify_comma :
    ∃ ofClause : Option Text → CompletionContext,
      (∀ clause, ofClause clause = .expression ↔ ¬ AsksName clause) ∧
      ∀ tokens : List Token, tokens.getLast? = some .comma →
        classify tokens =
          if 0 < parenDepth tokens then .expression
          else ofClause (nearestClause tokens) := by
  refine ⟨fun clause => clause.elim .expression fun word =>
    if word ∈ ["from", "join", "update", "into"].map String.toList then
      .relation
    else if word = "with".toList then .alias
    else .expression, fun clause => ?_, fun tokens h => ?_⟩
  · cases clause with
    | none => simp [AsksName]
    | some clause =>
      simp only [AsksName, Option.elim_some, Option.some.injEq,
        exists_eq_right']
      by_cases hrelation : clause ∈ ["from", "join", "update", "into"].map
          String.toList
      · rw [if_pos hrelation]
        refine iff_of_false (fun h => by cases h) (not_not_intro ?_)
        exact List.mem_append_left ["with".toList] hrelation
      · rw [if_neg hrelation]
        have hmem : clause ∈ ["from", "join", "update", "into", "with"].map
            String.toList ↔ clause = "with".toList := by
          refine (List.mem_append (s := ["from", "join", "update", "into"].map
            String.toList) (t := ["with".toList])).trans ?_
          simp only [hrelation, false_or, List.mem_singleton]
        rw [hmem]
        split <;> simp_all
  · have hclassify := classify.eq_def tokens
    rw [h] at hclassify
    cases hclause : nearestClause tokens with
    | none =>
      simp only [hclause] at hclassify
      exact hclassify
    | some clause =>
      simp only [hclause] at hclassify
      exact hclassify

theorem classify_close {tokens : List Token}
    (h : tokens.getLast? = some .close) :
    classify tokens =
      if parenDepth tokens = 0 ∧ startsWithWith tokens = true then
        .statementStart
      else .expression := by
  rw [classify, h]

theorem startsWithWith_append {statement : List Token} (hne : statement ≠ [])
    (fragment : List Token) :
    startsWithWith (statement ++ fragment) = startsWithWith statement := by
  rw [startsWithWith, startsWithWith, List.head?_append_of_ne_nil _ hne]

theorem classify_ne_qualifier (tokens : List Token) (parts : List Text) :
    classify tokens ≠ .qualifier parts := by
  rw [classify]
  repeat' split
  all_goals exact fun h => by cases h

theorem classify_append_comma_iff {statement fragment : List Token}
    (h : fragment.getLast? = some .comma)
    (hwhole : (statement ++ fragment).getLast? = some .comma) :
    classify (statement ++ fragment) = classify fragment ↔
      AsksSame statement fragment := by
  obtain ⟨ofClause, hname, hcomma⟩ := exists_classify_comma
  rw [AsksSame, h, hcomma _ hwhole, hcomma _ h, parenDepth_append,
    nearestClause_append]
  by_cases hopen : 0 < parenDepth fragment
  · rw [if_pos (by omega), if_pos hopen]
    exact iff_of_true rfl (Or.inl hopen)
  rw [if_neg hopen, or_iff_right hopen]
  by_cases hinside : unopened fragment < parenDepth statement
  · rw [if_pos (by omega), if_pos hinside, eq_comm]
    exact hname _
  rw [if_neg (by omega), if_neg hinside]
  cases nearestClause fragment with
  | none =>
    have hnone : ofClause none = .expression :=
      (hname none).2 fun ⟨_, _, h⟩ => by cases h
    rw [Option.none_or, ne_self_iff_false, false_or, hnone]
    exact hname _
  | some clause =>
    exact iff_of_true rfl (Or.inl (Option.some_ne_none clause))

theorem classify_append_close_iff {statement fragment : List Token}
    (hne : statement ≠ []) (h : fragment.getLast? = some .close)
    (hwhole : (statement ++ fragment).getLast? = some .close) :
    classify (statement ++ fragment) = classify fragment ↔
      AsksSame statement fragment := by
  rw [AsksSame, h, classify_close hwhole, classify_close h, parenDepth_append,
    startsWithWith_append hne]
  by_cases hopen : 0 < parenDepth fragment
  · rw [if_neg (by omega), if_neg (by omega)]
    exact iff_of_true rfl (Or.inl hopen)
  have hzero : parenDepth fragment = 0 := Nat.eq_zero_of_not_pos hopen
  have hafter : parenDepth statement - unopened fragment = 0 ↔
      parenDepth statement ≤ unopened fragment := Nat.sub_eq_zero_iff_le
  simp only [hzero, Nat.add_zero, hafter, lt_irrefl, false_or, true_and]
  by_cases halone : startsWithWith fragment = true <;>
    by_cases hwith : parenDepth statement ≤ unopened fragment ∧
      startsWithWith statement = true <;>
    simp [halone, hwith]

/-- The last token decides what is asked for, except for a comma and a closing
parenthesis. -/
theorem classify_append_iff {statement : List Token}
    (hlast : statement.getLast? = some .other) (fragment : List Token) :
    classify (statement ++ fragment) = classify fragment ↔
      AsksSame statement fragment := by
  have hne : statement ≠ [] := fun h => by
    rw [h] at hlast
    cases hlast
  cases hfragment : fragment.getLast? with
  | none =>
    rw [List.getLast?_eq_none_iff] at hfragment
    subst hfragment
    simp [AsksSame, classify, hlast]
  | some token =>
    have hwhole : (statement ++ fragment).getLast? = some token := by
      rw [List.getLast?_append, hfragment]
      rfl
    cases token with
    | comma => exact classify_append_comma_iff hfragment hwhole
    | close => exact classify_append_close_iff hne hfragment hwhole
    | word word => simp [AsksSame, classify, hwhole, hfragment]
    | quoted => simp [AsksSame, classify, hwhole, hfragment]
    | dot => simp [AsksSame, classify, hwhole, hfragment]
    | «open» => simp [AsksSame, classify, hwhole, hfragment]
    | other => simp [AsksSame, classify, hwhole, hfragment]

/-! ## Statements that are terminated -/

section Alone

variable [CharTables]

/-- The statement ends with a separator that the lexer comes to: it is outside
of quotes and comments. -/
def Terminated (statement : Text) : Prop :=
  ∃ tokens rest, Reaches statement tokens rest ∧ trimStart rest = [';']

theorem lexed_semicolon (fragment : Text) :
    lexed (';' :: fragment) = ([.other], some fragment) := by
  have hstart : (isIdentStart ';' || (';' : Char).isDigit) = false := by
    rw [isIdentStart, CharTables.isAlphabetic_ascii ';' (by decide)]
    decide
  rw [lexed, if_neg (by simp [List.isPrefixOf]), if_neg (by simp [List.isPrefixOf]),
    if_neg (by decide), if_neg (by decide), if_neg (by decide),
    if_neg (by decide), if_neg (by decide), if_neg (by decide),
    if_neg (by decide), hstart]
  rfl

theorem Terminated.eq_concat {statement : Text} (h : Terminated statement) :
    ∃ init, statement = init ++ [';'] := by
  obtain ⟨tokens, rest, hreaches, htrim⟩ := h
  obtain ⟨init, hinit⟩ := (htrim ▸ trimStart_suffix rest).trans hreaches.suffix
  exact ⟨init, hinit.symm⟩

/-- The lexer goes on with the fragment after the separator. -/
theorem Terminated.exists_tokens {statement : Text} (h : Terminated statement) :
    ∃ tokens, ∀ fragment, tokensOf (statement ++ fragment) =
      tokens ++ [.other] ++ tokensOf fragment := by
  obtain ⟨tokens, rest, hreaches, htrim⟩ := h
  have hrest : rest ≠ [] := fun hnil => by
    rw [hnil] at htrim
    cases htrim
  refine ⟨tokens, fun fragment => ?_⟩
  have htrim' : trimStart (rest ++ fragment) = ';' :: fragment := by
    rw [trimStart_append (by rw [htrim]; exact List.cons_ne_nil _ _), htrim]
    rfl
  rw [(hreaches.append hrest fragment).tokensOf_eq,
    tokensOf_some (htrim' ▸ lexed_semicolon fragment), List.append_assoc]

theorem Terminated.tokensOf_append {statement : Text} (h : Terminated statement)
    (fragment : Text) :
    tokensOf (statement ++ fragment) =
        tokensOf statement ++ tokensOf fragment ∧
      (tokensOf statement).getLast? = some .other := by
  obtain ⟨tokens, htokens⟩ := h.exists_tokens
  have hnil : tokensOf [] = [] := tokensOf_none rfl
  have hstatement := htokens []
  rw [List.append_nil, hnil, List.append_nil] at hstatement
  rw [htokens, hstatement]
  exact ⟨rfl, by simp⟩

/-! ## The qualifier before the word -/

omit [CharTables] in
/-- A quoted name whose opening quote is in the fragment. -/
theorem quotedOf_append_some {body part front : Text} {chars before : List Char}
    (h : quotedOf body chars = some (part, front))
    (hbefore : before.head? ≠ some '"') :
    quotedOf body (chars ++ before) =
      some (part, before.reverse ++ front) := by
  induction body, chars using quotedOf.induct with
  | case1 body chars ih =>
    rw [quotedOf] at h
    rw [List.cons_append, List.cons_append, quotedOf, ih h]
  | case2 body chars hpair =>
    rw [quotedOf, Option.some.injEq, Prod.mk.injEq] at h
    swap
    · exact hpair
    obtain ⟨rfl, rfl⟩ := h
    rw [List.cons_append, quotedOf, List.reverse_append]
    intro tail htail
    cases chars with
    | nil =>
      rw [List.nil_append] at htail
      rw [htail] at hbefore
      exact hbefore rfl
    | cons c chars =>
      rw [List.cons_append] at htail
      obtain ⟨rfl, -⟩ := List.cons.inj htail
      exact hpair chars rfl
  | case3 body c chars hpair hquote ih =>
    rw [quotedOf] at h
    · rw [List.cons_append, quotedOf, ih h]
      · exact fun tail hc => absurd hc hquote
      · exact hquote
    · exact hpair
    · exact hquote
  | case4 body => cases h

omit [CharTables] in
/-- A quoted name that the fragment does not open goes on in what is before. -/
theorem quotedOf_append_none {body : Text} {chars : List Char}
    (h : quotedOf body chars = none) (before : List Char) :
    quotedOf body (chars ++ before) =
      quotedOf (chars.reverse ++ body) before := by
  induction body, chars using quotedOf.induct with
  | case1 body chars ih =>
    rw [quotedOf] at h
    rw [List.cons_append, List.cons_append, quotedOf, ih h]
    simp
  | case2 body chars hpair =>
    rw [quotedOf] at h
    · cases h
    · exact hpair
  | case3 body c chars hpair hquote ih =>
    rw [quotedOf] at h
    · rw [List.cons_append, quotedOf, ih h]
      · simp
      · exact fun tail hc => absurd hc hquote
      · exact hquote
    · exact hpair
    · exact hquote
  | case4 body => rfl

omit [CharTables] in
theorem quotedOf_isSome_body (body other : Text) (chars : List Char) :
    (quotedOf body chars).isSome = (quotedOf other chars).isSome := by
  induction body, chars using quotedOf.induct generalizing other with
  | case1 body chars ih => rw [quotedOf, quotedOf, ih]
  | case2 body chars hpair =>
    rw [quotedOf, quotedOf]
    · rfl
    · exact hpair
    · exact hpair
  | case3 body c chars hpair hquote ih =>
    rw [quotedOf, quotedOf, ih]
    · exact hpair
    · exact hquote
    · exact hpair
    · exact hquote
  | case4 body => rfl

theorem trimEnd_append_stop (init fragment : Text) :
    trimEnd (init ++ ';' :: fragment) = init ++ ';' :: trimEnd fragment := by
  have hspace : ¬ isWhitespace ';' := by
    rw [CharTables.isWhitespace_ascii ';' (by decide)]
    decide
  exact rdropWhile_append_stop hspace init fragment

theorem not_isIdentChar_semicolon : ¬ isIdentChar ';' :=
  not_isIdentChar_of_ascii (by decide) (by decide)

omit [CharTables] in
theorem getLast_append_stop {c : Char} (hc : c ≠ ';') (init fragment : Text) :
    (init ++ ';' :: fragment).getLast? = some c ↔
      fragment.getLast? = some c := by
  rw [List.getLast?_append, List.getLast?_cons]
  cases hlast : fragment.getLast? with
  | none => simp [hc.symm]
  | some d => simp

/-- The identifier at the end of a fragment is the same after a statement. -/
theorem identifierOf_append_some {fragment part front : Text}
    (h : identifierOf fragment = some (part, front)) (init : Text) :
    identifierOf (init ++ ';' :: fragment) =
      some (part, init ++ ';' :: front) := by
  have hquote := getLast_append_stop (c := '"') (by decide) init (trimEnd fragment)
  simp only [identifierOf, trimEnd_append_stop, hquote] at h ⊢
  by_cases hlast : (trimEnd fragment).getLast? = some '"'
  · obtain ⟨body, hbody⟩ := List.getLast?_eq_some_iff.mp hlast
    have hchars : (init ++ ';' :: (body ++ ['"'])).dropLast.reverse =
        body.reverse ++ (init ++ [';']).reverse := by
      rw [← List.cons_append, ← List.append_assoc, List.dropLast_concat]
      simp
    rw [if_pos hlast, hbody, List.dropLast_concat] at h
    rw [if_pos hlast, hbody, hchars, quotedOf_append_some h (by simp)]
    simp
  · rw [if_neg hlast] at h
    rw [if_neg hlast, rtakeWhile_append_stop not_isIdentChar_semicolon,
      rdropWhile_append_stop not_isIdentChar_semicolon]
    by_cases hident : ((trimEnd fragment).rtakeWhile isIdentChar).head?.any
        isIdentStart
    · rw [if_pos hident] at h ⊢
      cases h
      rfl
    · rw [if_neg hident] at h
      cases h

/-- A quoted name without its opening quote goes on in the statement. -/
theorem identifierOf_append_none {fragment : Text}
    (h : identifierOf fragment = none) (init : Text) :
    identifierOf (init ++ ';' :: fragment) =
      if (trimEnd fragment).getLast? = some '"' then
        quotedOf (trimEnd fragment).dropLast (init ++ [';']).reverse
      else none := by
  have hquote := getLast_append_stop (c := '"') (by decide) init (trimEnd fragment)
  simp only [identifierOf, trimEnd_append_stop, hquote] at h ⊢
  by_cases hlast : (trimEnd fragment).getLast? = some '"'
  · obtain ⟨body, hbody⟩ := List.getLast?_eq_some_iff.mp hlast
    have hchars : (init ++ ';' :: (body ++ ['"'])).dropLast.reverse =
        body.reverse ++ (init ++ [';']).reverse := by
      rw [← List.cons_append, ← List.append_assoc, List.dropLast_concat]
      simp
    rw [if_pos hlast, hbody, List.dropLast_concat] at h
    rw [if_pos hlast, if_pos hlast, hbody, hchars, quotedOf_append_none h,
      List.dropLast_concat]
    simp
  · rw [if_neg hlast] at h
    rw [if_neg hlast, if_neg hlast,
      rtakeWhile_append_stop not_isIdentChar_semicolon]
    by_cases hident : ((trimEnd fragment).rtakeWhile isIdentChar).head?.any
        isIdentStart
    · rw [if_pos hident] at h
      cases h
    · rw [if_neg hident]

/-- Reading back the qualifier of a fragment runs over its start, in a quoted
part that the fragment does not open. -/
def RunsOver : ℕ → Text → Prop
  | 0, _ => False
  | n + 1, text =>
      (trimEnd text).getLast? = some '.' ∧
        match identifierOf (trimEnd text).dropLast with
        | none => (trimEnd (trimEnd text).dropLast).getLast? = some '"'
        | some (_, front) => RunsOver n front

/-- Read back, the statement opens a quoted name. -/
def OpensBack (statement : Text) : Prop :=
  (quotedOf [] statement.reverse).isSome

theorem dropLast_trimEnd_append {fragment : Text}
    (hdot : (trimEnd fragment).getLast? = some '.') (init : Text) :
    (trimEnd (init ++ ';' :: fragment)).dropLast =
      init ++ ';' :: (trimEnd fragment).dropLast := by
  have hne : trimEnd fragment ≠ [] := fun hnil => by
    rw [hnil] at hdot
    cases hdot
  rw [trimEnd_append_stop, List.dropLast_append_of_ne_nil (List.cons_ne_nil _ _),
    List.dropLast_cons_of_ne_nil hne]

theorem getLast_trimEnd_append (init fragment : Text) :
    (trimEnd (init ++ ';' :: fragment)).getLast? = some '.' ↔
      (trimEnd fragment).getLast? = some '.' := by
  rw [trimEnd_append_stop]
  exact getLast_append_stop (by decide) init (trimEnd fragment)

/-- A qualifier that does not run over the start of the fragment is the same
after a statement. -/
theorem qualifierOf_append (init : Text) (n : ℕ) (fragment : Text)
    (h : ¬ (RunsOver n fragment ∧ OpensBack (init ++ [';']))) :
    (qualifierOf n (init ++ ';' :: fragment)).1 = (qualifierOf n fragment).1 := by
  induction n generalizing fragment with
  | zero => rfl
  | succ n ih =>
    have hsame := getLast_trimEnd_append init fragment
    by_cases hdot : (trimEnd fragment).getLast? = some '.'
    swap
    · rw [qualifierOf_of_not_dot n hdot,
        qualifierOf_of_not_dot n fun hwhole => hdot (hsame.mp hwhole)]
    have hdrop := dropLast_trimEnd_append hdot init
    rw [RunsOver, and_iff_right hdot] at h
    cases hident : identifierOf (trimEnd fragment).dropLast with
    | some p =>
      obtain ⟨part, front⟩ := p
      rw [hident] at h
      rw [qualifierOf_of_some n hdot hident, qualifierOf_of_some n
        (hsame.mpr hdot) (hdrop ▸ identifierOf_append_some hident init), ih front h]
    | none =>
      rw [hident] at h
      have hwhole := identifierOf_append_none hident init
      have hnone : identifierOf (init ++ ';' :: (trimEnd fragment).dropLast) =
          none := by
        rw [hwhole]
        split
        · rename_i hquote
          rw [← Option.isNone_iff_eq_none, ← Option.not_isSome,
            quotedOf_isSome_body _ []]
          simpa [OpensBack, hquote] using h
        · rfl
      rw [qualifierOf_of_none n hident, qualifierOf_of_none n (hdrop ▸ hnone)]

/-- One that does has a part more. -/
theorem length_qualifierOf_append (init : Text) (n : ℕ) (fragment : Text)
    (hruns : RunsOver n fragment) (hopens : OpensBack (init ++ [';'])) :
    (qualifierOf n fragment).1.length <
      (qualifierOf n (init ++ ';' :: fragment)).1.length := by
  induction n generalizing fragment with
  | zero => exact hruns.elim
  | succ n ih =>
    obtain ⟨hdot, hruns⟩ := hruns
    have hsame := getLast_trimEnd_append init fragment
    have hdrop := dropLast_trimEnd_append hdot init
    cases hident : identifierOf (trimEnd fragment).dropLast with
    | some p =>
      obtain ⟨part, front⟩ := p
      rw [hident] at hruns
      rw [qualifierOf_of_some n hdot hident, qualifierOf_of_some n
        (hsame.mpr hdot) (hdrop ▸ identifierOf_append_some hident init)]
      have := ih front hruns
      simp only [List.length_append, List.length_singleton]
      omega
    | none =>
      rw [hident] at hruns
      rw [OpensBack, quotedOf_isSome_body [] (trimEnd
        (trimEnd fragment).dropLast).dropLast] at hopens
      obtain ⟨⟨part, front⟩, hp⟩ := Option.isSome_iff_exists.mp hopens
      have hwhole := identifierOf_append_none hident init
      rw [if_pos hruns, hp] at hwhole
      rw [qualifierOf_of_none n hident,
        qualifierOf_of_some n (hsame.mpr hdot) (hdrop ▸ hwhole)]
      simp

/-! ## The context -/

/-- The statement does not change where the word of the fragment starts: it has
an even number of quotes, or there is no quote before the word. -/
def SameWord (statement fragment : Text) : Prop :=
  statement.count '"' % 2 = 0 ∨
    (fragment.rdropWhile isIdentChar).getLast? ≠ some '"'

theorem wordFront_append {init fragment : Text}
    (h : SameWord (init ++ [';']) fragment) :
    wordFront (init ++ ';' :: fragment) = init ++ ';' :: wordFront fragment := by
  have hquote := getLast_append_stop (c := '"') (by decide) init
    (fragment.rdropWhile isIdentChar)
  have hcount : (init ++ ';' :: fragment.rdropWhile isIdentChar).count '"' =
      (init ++ [';']).count '"' +
        (fragment.rdropWhile isIdentChar).count '"' := by
    rw [← List.count_append, List.append_assoc, List.singleton_append]
  simp only [wordFront, rdropWhile_append_stop not_isIdentChar_semicolon, hquote,
    hcount]
  rcases h with heven | hother
  · have hparity : ((init ++ [';']).count '"' +
          (fragment.rdropWhile isIdentChar).count '"') % 2 = 1 ↔
        (fragment.rdropWhile isIdentChar).count '"' % 2 = 1 := by omega
    simp only [hparity]
    by_cases hopen : (fragment.rdropWhile isIdentChar).getLast? = some '"' ∧
        (fragment.rdropWhile isIdentChar).count '"' % 2 = 1
    · have hne : fragment.rdropWhile isIdentChar ≠ [] := fun hnil => by
        rw [hnil] at hopen
        cases hopen.1
      rw [if_pos hopen, if_pos hopen,
        List.dropLast_append_of_ne_nil (List.cons_ne_nil _ _),
        List.dropLast_cons_of_ne_nil hne]
    · rw [if_neg hopen, if_neg hopen]
  · rw [if_neg fun hopen => hother hopen.1, if_neg fun hopen => hother hopen.1]

/-- The fragment is read as if it were alone: the word starts where it does
alone, the qualifier before it stays in the fragment, and without a qualifier
the tokens before the word ask for the same. -/
structure ReadsAlone (statement fragment : Text) : Prop where
  word : SameWord statement fragment
  qualifier : ¬ (RunsOver 3 (wordFront fragment) ∧ OpensBack statement)
  tokens : (qualifierOf 3 (wordFront fragment)).1 = [] →
    AsksSame (tokensOf statement) (tokensOf (wordFront fragment))

theorem contextAfter_append_iff {statement : Text} (h : Terminated statement)
    (front : Text) :
    contextAfter (statement ++ front) = contextAfter front ↔
      ¬ (RunsOver 3 front ∧ OpensBack statement) ∧
        ((qualifierOf 3 front).1 = [] →
          AsksSame (tokensOf statement) (tokensOf front)) := by
  obtain ⟨htokens, hlast⟩ := h.tokensOf_append front
  obtain ⟨init, rfl⟩ := h.eq_concat
  rw [← classify_append_iff hlast, ← htokens]
  rw [List.append_assoc, List.singleton_append]
  by_cases hover : RunsOver 3 front ∧ OpensBack (init ++ [';'])
  · have hlonger := length_qualifierOf_append init 3 front hover.1 hover.2
    have hparts : (qualifierOf 3 (init ++ ';' :: front)).1 ≠ [] := fun hnil => by
      rw [hnil] at hlonger
      exact Nat.not_lt_zero _ hlonger
    refine iff_of_false (fun heq => ?_) fun hrest => hrest.1 hover
    rw [contextAfter, if_neg hparts, contextAfter] at heq
    split at heq
    · exact classify_ne_qualifier _ _ heq.symm
    · rw [CompletionContext.qualifier.inj heq] at hlonger
      exact lt_irrefl _ hlonger
  · rw [and_iff_right hover, contextAfter, contextAfter,
      qualifierOf_append init 3 front hover]
    by_cases hparts : (qualifierOf 3 front).1 = []
    · rw [if_pos hparts, if_pos hparts]
      exact ⟨fun heq _ => heq, fun heq => heq hparts⟩
    · rw [if_neg hparts, if_neg hparts]
      exact iff_of_true rfl fun hnil => absurd hnil hparts

/-- Where the word starts at the same place, the context is that of the fragment
alone just when the fragment is read as if it were alone. -/
theorem context_append_iff {statement fragment : Text}
    (h : Terminated statement) (hword : SameWord statement fragment)
    (base start : ℕ) :
    (cursorContext (statement ++ fragment) base).map CursorContext.context =
        (cursorContext fragment start).map CursorContext.context ↔
      ReadsAlone statement fragment := by
  obtain ⟨init, hinit⟩ := h.eq_concat
  have hfront : wordFront (statement ++ fragment) =
      statement ++ wordFront fragment := by
    have hwhole := wordFront_append (hinit ▸ hword)
    rw [hinit, List.append_assoc, List.append_assoc]
    exact hwhole
  rw [cursorContext_eq, cursorContext_eq, hfront, Option.map_some,
    Option.map_some, Option.some.injEq, contextAfter_append_iff h]
  exact ⟨fun hrest => ⟨hword, hrest.1, hrest.2⟩, fun hreads =>
    ⟨hreads.qualifier, hreads.tokens⟩⟩

/-! ## The request -/

omit [CharTables] in
theorem slice_of_parts {buffer : Buffer} {lead text tail : Text}
    (htext : buffer.rope = lead ++ text ++ tail) :
    buffer.slice ⟨lenBytes lead, lenBytes (lead ++ text)⟩ = .ok text := by
  have hvalid : ByteRange.Valid buffer.rope
      ⟨lenBytes lead, lenBytes (lead ++ text)⟩ := by
    rw [htext, Rope.lenBytes_append]
    exact ByteRange.Valid.of_parts rfl rfl rfl
  rw [Buffer.slice_of_valid hvalid, htext, Rope.lenBytes_append]
  exact congrArg _ (Rope.byteSlice_parts lead text tail)

/-- The context of a request: the text is read from where the statement at the
cursor starts. -/
def cursorAt (analysis : Analysis) (buffer : Buffer) (offset : ℕ) :
    Option CursorContext :=
  let start := analysis.statementStart offset
  cursorContext (((buffer.slice ⟨start, offset⟩).toOption).getD []) start

/-- At the end of a fragment after a statement with the last scope before it,
the context is that of the fragment alone if the fragment is read as if it were
alone; and only then, if its word starts at the same place. -/
theorem contextAlone {analysis : Analysis} {buffer : Buffer}
    {lead statement fragment tail : Text}
    (htext : buffer.rope = lead ++ statement ++ fragment ++ tail)
    (hterminated : Terminated statement)
    (hstart : analysis.statementStart
      (lenBytes (lead ++ statement ++ fragment)) = lenBytes lead) :
    (ReadsAlone statement fragment →
      (cursorAt analysis buffer (lenBytes (lead ++ statement ++ fragment))).map
          CursorContext.context =
        (cursorContext fragment (lenBytes (lead ++ statement))).map
          CursorContext.context) ∧
      (SameWord statement fragment →
        (cursorAt analysis buffer
            (lenBytes (lead ++ statement ++ fragment))).map
            CursorContext.context =
          (cursorContext fragment (lenBytes (lead ++ statement))).map
            CursorContext.context →
        ReadsAlone statement fragment) := by
  have hparts : buffer.rope = lead ++ (statement ++ fragment) ++ tail := by
    rw [htext, List.append_assoc lead]
  have hslice := slice_of_parts hparts
  rw [← List.append_assoc] at hslice
  have hcursor : cursorAt analysis buffer
      (lenBytes (lead ++ statement ++ fragment)) =
        cursorContext (statement ++ fragment) (lenBytes lead) := by
    rw [cursorAt, hstart, hslice]
    rfl
  rw [hcursor]
  constructor
  · intro hreads
    exact (context_append_iff hterminated hreads.word _ _).mpr hreads
  · intro hword heq
    exact (context_append_iff hterminated hword _ _).mp heq

/-- A partly typed first word starts a statement; after another one it never
does. -/
theorem context_first_word {statement fragment : Text}
    (h : Terminated statement) (hword : ∀ c ∈ fragment, isIdentChar c)
    (base start : ℕ) :
    (cursorContext fragment start).map CursorContext.context =
        some .statementStart ∧
      (cursorContext (statement ++ fragment) base).map CursorContext.context =
        some .expression := by
  have hempty : fragment.rdropWhile isIdentChar = [] :=
    List.rdropWhile_eq_nil_iff.mpr hword
  have hfront : wordFront fragment = [] := by
    rw [wordFront, hempty]
    rfl
  have hdot : (trimEnd []).getLast? ≠ some '.' := by simp [trimEnd]
  have hparts : (qualifierOf 3 []).1 = [] := by
    rw [qualifierOf_of_not_dot 2 hdot]
  have htokens : tokensOf [] = [] := tokensOf_none rfl
  obtain ⟨hwhole, hlast⟩ := h.tokensOf_append []
  obtain ⟨init, rfl⟩ := h.eq_concat
  have hsame : wordFront (init ++ [';'] ++ fragment) = init ++ [';'] ++ [] := by
    have hword : SameWord (init ++ [';']) fragment := Or.inr (by
      rw [hempty]
      simp)
    have happend := wordFront_append hword
    rw [hfront] at happend
    rw [List.append_nil, List.append_assoc]
    exact happend
  have hnone : (qualifierOf 3 (init ++ [';'] ++ [])).1 = [] := by
    have happend := qualifierOf_append init 3 [] fun hover => hdot hover.1.1
    rw [hparts] at happend
    rw [List.append_nil]
    exact happend
  rw [cursorContext_eq, cursorContext_eq, hfront, hsame]
  constructor
  · simp [contextAfter, hparts, htokens, classify]
  · rw [Option.map_some, contextAfter, if_pos hnone, hwhole, htokens,
      List.append_nil, classify, hlast]

end Alone

section Sample

local instance charsAlone : CharTables := CharTables.ascii

/-- The analysis of `select 1;` with a fragment after it. -/
def oneStatement : Analysis := ⟨[⟨⟨0, 8⟩, [], [], []⟩], []⟩

theorem terminated_select : Terminated "select 1;".toList := by
  have hselect : tokenizeStep "select 1;".toList =
      some ([.word "select".toList], some " 1;".toList) := by decide +kernel
  have hone : tokenizeStep " 1;".toList =
      some ([.word "1".toList], some ";".toList) := by decide +kernel
  exact ⟨_, _, .round hselect (.round hone (.refl _)), by decide +kernel⟩

theorem readsAlone_from :
    ReadsAlone "select 1;".toList " select * from us".toList := by
  have htokens : tokenize (wordFront " select * from us".toList) =
      some [.word "select".toList, .other, .word "from".toList] := by
    decide +kernel
  rw [tokenize_eq, Option.some.injEq] at htokens
  have hdot : (trimEnd (wordFront " select * from us".toList)).getLast? ≠
      some '.' := by decide +kernel
  refine ⟨Or.inl (by decide +kernel), fun hover => hdot hover.1.1, fun _ => ?_⟩
  rw [htokens]
  trivial

theorem contextAlone_from :
    (cursorAt oneStatement (.new 1 "select 1; select * from us".toList) 26).map
        CursorContext.context =
      (cursorContext " select * from us".toList 9).map
        CursorContext.context := by
  have htext : (Buffer.new 1 "select 1; select * from us".toList).rope =
      [] ++ "select 1;".toList ++ " select * from us".toList ++ [] := by
    decide +kernel
  have hoffset :
      lenBytes ([] ++ "select 1;".toList ++ " select * from us".toList) = 26 := by
    decide +kernel
  have hbase : lenBytes ([] ++ "select 1;".toList) = 9 := by decide +kernel
  have hstart : oneStatement.statementStart
      (lenBytes ([] ++ "select 1;".toList ++ " select * from us".toList)) =
        lenBytes [] := by decide +kernel
  have halone := (contextAlone htext terminated_select hstart).1 readsAlone_from
  rwa [hoffset, hbase] at halone

/-- A first word after a statement is read as part of an expression. -/
theorem context_first_word_differs :
    Terminated "select 1;".toList ∧
      (cursorAt oneStatement (.new 1 "select 1;sel".toList) 12).map
          CursorContext.context = some .expression ∧
      (cursorContext "sel".toList 9).map CursorContext.context =
        some .statementStart :=
  ⟨terminated_select, by decide +kernel, by decide +kernel⟩

end Sample

end Tempr.Intel
