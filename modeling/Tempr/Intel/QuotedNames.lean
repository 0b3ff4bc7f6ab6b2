import Tempr.Intel.CursorWord

/-!
# Quoted names

A name is written in quotes, with its own quotes doubled, or plain. Whatever the
name is, it is read back from what is written: by the analysis, backwards from
the cursor, and by the lexer.
-/

namespace Tempr.Intel

open Tempr.Editor (Rope)
open Tempr.Editor.Rope (lenBytes)

/-! ## Reading quotes backwards -/

theorem escapeQuotes_append (a b : Text) :
    escapeQuotes (a ++ b) = escapeQuotes a ++ escapeQuotes b := by
  induction a with
  | nil => rfl
  | cons c a ih =>
    rw [List.cons_append, escapeQuotes, escapeQuotes, ih]
    split
    · rfl
    · rfl

theorem escapeQuotes_concat_quote (name : Text) :
    escapeQuotes (name ++ ['"']) = escapeQuotes name ++ ['"', '"'] :=
  escapeQuotes_append name ['"']

theorem escapeQuotes_concat_of_ne {c : Char} (hc : c ≠ '"') (name : Text) :
    escapeQuotes (name ++ [c]) = escapeQuotes name ++ [c] := by
  rw [escapeQuotes_append, escapeQuotes, if_neg hc]
  rfl

/-- A quote without another one before it opens the name. -/
theorem quotedOf_opening {before : List Char}
    (hbefore : before.head? ≠ some '"')
    (body : Text) :
    quotedOf body ('"' :: before) =
      some (unescapeQuotes body, before.reverse) := by
  rw [quotedOf.eq_2]
  rintro tail rfl
  exact hbefore rfl

/-- Read backwards, the quotes of a name come in pairs, up to the one that opens
it. -/
theorem quotedOf_escapeQuotes {before : List Char}
    (hbefore : before.head? ≠ some '"') (name body : Text) :
    quotedOf body ((escapeQuotes name).reverse ++ '"' :: before) =
      some (unescapeQuotes (escapeQuotes name ++ body), before.reverse) := by
  induction name using List.reverseRecOn generalizing body with
  | nil => exact quotedOf_opening hbefore body
  | append_singleton name c ih =>
    by_cases hc : c = '"'
    · subst hc
      rw [escapeQuotes_concat_quote, List.reverse_append, List.append_assoc]
      exact (ih ('"' :: '"' :: body)).trans (by rw [List.append_assoc]; rfl)
    · rw [escapeQuotes_concat_of_ne hc, List.reverse_append, List.append_assoc]
      rw [List.reverse_singleton, List.singleton_append, quotedOf.eq_3]
      · rw [ih, List.append_assoc]
        rfl
      · exact fun tail h => absurd h hc
      · exact hc

/-! ## Reading quotes forwards -/

/-- What is read in quotes is the name, and what follows is left. -/
theorem takeQuotedFrom_escapeQuotes {rest : Text}
    (hrest : rest.head? ≠ some '"')
    (name : Text) : ∀ done body : Text,
    takeQuotedFrom '"' (done ++ (escapeQuotes name ++ '"' :: rest)) body false
        (lenBytes done) (escapeQuotes name ++ '"' :: rest) =
      some (body ++ name, rest) := by
  induction name with
  | nil =>
    intro done body
    rw [escapeQuotes, List.nil_append, takeQuotedFrom_quote (by decide),
      if_neg hrest, List.append_nil]
  | cons c name ih =>
    intro done body
    by_cases hc : c = '"'
    · subst hc
      have hih := ih (done ++ ['"', '"']) (body ++ ['"'])
      simp only [Rope.lenBytes_append, Rope.lenBytes_cons, Rope.lenBytes_nil,
        List.append_assoc, List.cons_append, List.nil_append, Nat.add_zero]
          at hih
      rw [escapeQuotes, if_pos rfl, List.cons_append, List.cons_append,
        takeQuotedFrom_quote (by decide), if_pos List.head?_cons,
        takeQuotedFrom, Nat.add_assoc, hih]
    · have hih := ih (done ++ [c]) (body ++ [c])
      simp only [Rope.lenBytes_append, Rope.lenBytes_cons, Rope.lenBytes_nil,
        List.append_assoc, List.cons_append, List.nil_append, Nat.add_zero]
          at hih
      rw [escapeQuotes, if_neg hc, List.cons_append, takeQuotedFrom, if_neg hc,
        hih]

theorem takeQuoted_escapeQuotes {rest : Text} (hrest : rest.head? ≠ some '"')
    (name : Text) :
    takeQuoted ('"' :: escapeQuotes name ++ '"' :: rest) = some (name, rest) :=
  takeQuotedFrom_escapeQuotes hrest name ['"'] []

/-! ## Plain names -/

theorem quoteIdent_eq_self_iff {name : Text} :
    quoteIdent name = name ↔ isPlain name = true := by
  rw [quoteIdent]
  split
  · rename_i hplain
    exact iff_of_true rfl hplain
  · rename_i hplain
    refine iff_of_false (fun h => ?_) hplain
    have hlong : name.length ≤ (escapeQuotes name).length := by
      clear h hplain
      induction name with
      | nil => exact Nat.le_refl _
      | cons c name ih =>
        rw [escapeQuotes]
        split <;> simp only [List.length_cons] <;> omega
    have hlen := congrArg List.length h
    simp only [List.length_append, List.length_cons, List.length_nil] at hlen
    omega

/-- A plain name has only characters of ASCII, from the dollar sign on. -/
theorem toNat_of_isPlainRest {c : Char} (h : isPlainRest c) :
    36 ≤ c.toNat ∧ c.toNat < 128 := by
  simp only [isPlainRest, Bool.or_eq_true, decide_eq_true_eq] at h
  rcases h with ((hlower | hdigit) | rfl) | rfl
  · have hrange := (Bool.and_eq_true _ _).mp hlower
    have hfrom : c.val ≥ 'a'.val := of_decide_eq_true hrange.1
    have hto : c.val ≤ 'z'.val := of_decide_eq_true hrange.2
    exact ⟨Nat.le_trans (by decide) (UInt32.le_iff_toNat_le.mp hfrom),
      Nat.lt_of_le_of_lt (UInt32.le_iff_toNat_le.mp hto) (by decide)⟩
  · have hrange := (Bool.and_eq_true _ _).mp hdigit
    have hfrom : c.val ≥ '0'.val := of_decide_eq_true hrange.1
    have hto : c.val ≤ '9'.val := of_decide_eq_true hrange.2
    exact ⟨Nat.le_trans (by decide) (UInt32.le_iff_toNat_le.mp hfrom),
      Nat.lt_of_le_of_lt (UInt32.le_iff_toNat_le.mp hto) (by decide)⟩
  · decide
  · decide

theorem isAlpha_of_isLower {c : Char} (h : c.isLower) : c.isAlpha :=
  Bool.or_eq_true_iff.mpr (Or.inr h)

section Readers

variable [CharTables]

theorem isIdentChar_of_isPlainRest {c : Char} (h : isPlainRest c) :
    isIdentChar c := by
  have hascii := (toNat_of_isPlainRest h).2
  rw [isIdentChar, CharTables.isAlphabetic_ascii c hascii,
    CharTables.isNumeric_ascii c hascii]
  simp only [isPlainRest, Bool.or_eq_true, decide_eq_true_eq] at h
  simp only [Bool.or_eq_true, decide_eq_true_eq]
  rcases h with ((hlower | hdigit) | hline) | hdollar
  · exact Or.inl (Or.inl (isAlpha_of_isLower hlower))
  · exact Or.inl (Or.inr hdigit)
  · exact Or.inr (Or.inl hline)
  · exact Or.inr (Or.inr hdollar)

theorem isIdentStart_of_isPlainStart {c : Char} (h : isPlainStart c) :
    isIdentStart c := by
  simp only [isPlainStart, Bool.or_eq_true, decide_eq_true_eq] at h
  rcases h with hlower | rfl
  · have hrest : isPlainRest c := by
      simp only [isPlainRest, hlower, Bool.true_or]
    rw [isIdentStart,
      CharTables.isAlphabetic_ascii c (toNat_of_isPlainRest hrest).2,
      isAlpha_of_isLower hlower, Bool.true_or]
  · rw [isIdentStart, decide_eq_true rfl, Bool.or_true]

theorem not_isWhitespace_of_isPlainRest {c : Char} (h : isPlainRest c) :
    ¬ isWhitespace c := by
  obtain ⟨hle, hascii⟩ := toNat_of_isPlainRest h
  rw [CharTables.isWhitespace_ascii c hascii]
  have hspace : c ≠ ' ' := by
    rintro rfl
    exact absurd hle (by decide)
  simp only [Bool.or_eq_true, beq_iff_eq, decide_eq_true_eq]
  rintro (h | h)
  · exact hspace h
  · omega

theorem not_isWhitespace_quote : ¬ isWhitespace '"' := by
  rw [CharTables.isWhitespace_ascii '"' (by decide)]
  decide

/-- A quoted name is read back with the text before it. -/
theorem identifierOf_quoted {before : Text}
    (hbefore : before.getLast? ≠ some '"')
    (name : Text) :
    identifierOf (before ++ ('"' :: escapeQuotes name ++ ['"'])) =
      some (name, before) := by
  have hsame : before ++ ('"' :: escapeQuotes name ++ ['"']) =
      before ++ '"' :: escapeQuotes name ++ ['"'] := by
    rw [List.append_assoc]
  have htrim : trimEnd (before ++ '"' :: escapeQuotes name ++ ['"']) =
      before ++ '"' :: escapeQuotes name ++ ['"'] :=
    List.rdropWhile_concat_neg _ _ _ not_isWhitespace_quote
  have hhead : before.reverse.head? ≠ some '"' := by
    rwa [List.head?_reverse]
  simp only [identifierOf, hsame, htrim]
  rw [if_pos List.getLast?_concat, List.dropLast_concat, List.reverse_append,
    List.reverse_cons, List.append_assoc, List.singleton_append,
    quotedOf_escapeQuotes hhead, List.append_nil, unescapeQuotes_escapeQuotes,
    List.reverse_reverse]

omit [CharTables] in
/-- What is read back is all of a text after a character that stops it. -/
theorem readBack_append {p : Char → Bool} {before text : Text}
    (hbefore : ∀ c, before.getLast? = some c → ¬ p c)
    (htext : ∀ c ∈ text, p c) :
    (before ++ text).rtakeWhile p = text ∧
    (before ++ text).rdropWhile p = before := by
  have htake : text.rtakeWhile p = text := List.rtakeWhile_eq_self_iff.mpr htext
  have hdrop : text.rdropWhile p = [] := List.rdropWhile_eq_nil_iff.mpr htext
  rcases List.eq_nil_or_concat' before with rfl | ⟨init, stop, rfl⟩
  · exact ⟨htake, hdrop⟩
  · have hstop := hbefore stop List.getLast?_concat
    rw [List.append_assoc, List.singleton_append, rtakeWhile_append_stop hstop,
      rdropWhile_append_stop hstop, htake, hdrop]
    exact ⟨rfl, rfl⟩

/-- A plain name is read back to the first character that belongs to no
identifier. -/
theorem identifierOf_plain {before name : Text}
    (hbefore : ∀ c, before.getLast? = some c → ¬ isIdentChar c)
    (hplain : isPlain name) :
    identifierOf (before ++ name) = some (name, before) := by
  have hrest := isPlainRest_of_isPlain hplain
  have hident : ∀ c ∈ name, isIdentChar c :=
    fun c hc => isIdentChar_of_isPlainRest (hrest c hc)
  have hstart : name.head?.any isIdentStart := by
    simp only [isPlain, Bool.and_eq_true] at hplain
    obtain ⟨first, hfirst, hstart⟩ := Option.any_eq_true _ _ |>.mp hplain.1.1
    rw [hfirst]
    exact isIdentStart_of_isPlainStart hstart
  have hne : name ≠ [] := by
    rintro rfl
    exact Bool.false_ne_true hstart
  obtain ⟨init, last, rfl⟩ := List.eq_nil_or_concat' name |>.resolve_left hne
  have hlast := hrest last (by simp)
  have htrim : trimEnd (before ++ (init ++ [last])) =
      before ++ (init ++ [last]) := by
    rw [← List.append_assoc]
    exact List.rdropWhile_concat_neg _ _ _
      (not_isWhitespace_of_isPlainRest hlast)
  have hquote : (before ++ (init ++ [last])).getLast? ≠ some '"' := by
    rw [← List.append_assoc, List.getLast?_concat, ne_eq, Option.some.injEq]
    rintro rfl
    exact absurd hlast (by decide)
  obtain ⟨htake, hdrop⟩ := readBack_append hbefore hident
  simp only [identifierOf, htrim]
  rw [if_neg hquote, htake, hdrop, if_pos hstart]

/-- Every reader gives back the name that was written: the analysis, the
qualifier before the cursor, and the lexer. -/
theorem quoteIdent_roundTrip (name : Text) :
    normalizeIdentifier (quoteIdent name) = name ∧
      (quoteIdent name ≠ name →
        (∀ before : Text, before.getLast? ≠ some '"' →
          identifierBack (before ++ quoteIdent name) =
            some (name, lenBytes before)) ∧
        ∀ rest : Text, rest.head? ≠ some '"' →
          takeQuoted (quoteIdent name ++ rest) = some (name, rest)) ∧
      (quoteIdent name = name →
        ∀ before : Text, (∀ c, before.getLast? = some c → ¬ isIdentChar c) →
          identifierBack (before ++ quoteIdent name) =
            some (name, lenBytes before)) := by
  refine ⟨normalizeIdentifier_quoteIdent name, fun hquoted => ?_,
    fun hsame => ?_⟩
  · have hwritten : quoteIdent name = '"' :: escapeQuotes name ++ ['"'] :=
      if_neg fun hplain => hquoted (quoteIdent_eq_self_iff.mpr hplain)
    rw [hwritten]
    constructor
    · intro before hbefore
      rw [identifierBack_eq, identifierOf_quoted hbefore]
      rfl
    · intro rest hrest
      rw [List.append_assoc]
      exact takeQuoted_escapeQuotes hrest name
  · intro before hbefore
    rw [hsame, identifierBack_eq,
      identifierOf_plain hbefore (quoteIdent_eq_self_iff.mp hsame)]
    rfl

end Readers

end Tempr.Intel
