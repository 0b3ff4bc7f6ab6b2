import Mathlib.Data.List.Basic

/-!
# Names in SQL text

The text of identifiers: how the analysis reads a name, and how a completion
writes one. Names are compared after the lower casing of the standard library,
of which nothing is used but that it is a function of the text.
-/

namespace Tempr.Intel

/-- A text, also a name. -/
abbrev Text := List Char

/-- The full lower casing of a text. -/
class Unicode where
  toLowercase : Text → Text

/-- The lower casing of texts in ASCII. -/
@[reducible] def Unicode.ascii : Unicode where
  toLowercase text := text.map Char.toLower

export Unicode (toLowercase)

/-! ## Quotes -/

/-- Every quote doubled. -/
def escapeQuotes : Text → Text
  | [] => []
  | c :: text =>
      if c = '"' then '"' :: '"' :: escapeQuotes text
      else c :: escapeQuotes text

/-- Every doubled quote replaced by one, from left to right. -/
def unescapeQuotes : Text → Text
  | '"' :: '"' :: text => '"' :: unescapeQuotes text
  | c :: text => c :: unescapeQuotes text
  | [] => []

theorem unescapeQuotes_cons {c : Char} (hc : c ≠ '"') (text : Text) :
    unescapeQuotes (c :: text) = c :: unescapeQuotes text := by
  cases text with
  | nil => rw [unescapeQuotes.eq_2 _ _ (by simp)]
  | cons d text =>
      rw [unescapeQuotes.eq_2 _ _ (fun _ h _ => hc h)]

@[simp] theorem unescapeQuotes_escapeQuotes (text : Text) :
    unescapeQuotes (escapeQuotes text) = text := by
  induction text with
  | nil => rfl
  | cons c text ih =>
      by_cases hc : c = '"'
      · subst hc
        simp [escapeQuotes, unescapeQuotes, ih]
      · rw [escapeQuotes, if_neg hc, unescapeQuotes_cons hc, ih]

/-! ## Reading and writing names -/

/-- An unquoted name folds to ASCII lower case; a quoted one denotes the text
inside. -/
def normalizeIdentifier (raw : Text) : Text :=
  if 2 ≤ raw.length ∧ raw.head? = some '"' ∧ raw.getLast? = some '"' then
    unescapeQuotes (raw.drop 1).dropLast
  else raw.map Char.toLower

/-- The keywords offered when the catalog has none; names that are written in
quotes. -/
def fallbackKeywords : List String :=
  ["select", "from", "where", "and", "or", "not", "null", "is", "in", "like",
    "ilike", "between", "exists", "join", "inner", "left", "right", "full",
    "outer", "cross", "on", "using", "as", "distinct", "group", "by", "order",
    "having", "limit", "offset", "union", "all", "intersect", "except", "case",
    "when", "then", "else", "end", "insert", "into", "values", "update", "set",
    "delete", "returning", "with", "recursive", "create", "alter", "drop",
    "table", "view", "index", "schema", "function", "begin", "commit",
    "rollback", "explain", "analyze", "count", "sum", "avg", "min", "max",
    "coalesce", "cast", "now", "current_date", "current_timestamp", "true",
    "false", "asc", "desc", "nulls", "first", "last", "over", "partition",
    "window", "lateral", "fetch", "for", "of", "only"]

def isPlainStart (c : Char) : Bool :=
  c.isLower || c = '_'

def isPlainRest (c : Char) : Bool :=
  c.isLower || c.isDigit || c = '_' || c = '$'

/-- A name that needs no quotes. -/
def isPlain (name : Text) : Bool :=
  name.head?.any isPlainStart && name.tail.all isPlainRest
    && !(fallbackKeywords.any fun keyword => keyword.toList = name)

def quoteIdent (name : Text) : Text :=
  if isPlain name then name
  else '"' :: escapeQuotes name ++ ['"']

theorem toLower_of_isPlainRest {c : Char} (h : isPlainRest c = true) :
    c.toLower = c := by
  have hupper : ¬(c.val ≥ 'A'.val ∧ c.val ≤ 'Z'.val) := by
    rintro ⟨hA, hZ⟩
    simp only [isPlainRest, Bool.or_eq_true, decide_eq_true_eq] at h
    rcases h with ((hlower | hdigit) | rfl) | rfl
    · have ha : c.val ≥ 'a'.val :=
        of_decide_eq_true ((Bool.and_eq_true _ _).mp hlower).1
      exact absurd (UInt32.le_trans ha hZ) (by decide)
    · have h9 : c.val ≤ '9'.val :=
        of_decide_eq_true ((Bool.and_eq_true _ _).mp hdigit).2
      exact absurd (UInt32.le_trans hA h9) (by decide)
    · exact absurd hZ (by decide)
    · exact absurd hA (by decide)
  exact dif_neg hupper

theorem isPlainRest_of_isPlain {name : Text} (h : isPlain name = true) :
    ∀ c ∈ name, isPlainRest c = true := by
  cases name with
  | nil => simp
  | cons c name =>
      simp only [isPlain, List.head?_cons, Option.any_some, List.tail_cons,
        Bool.and_eq_true, List.all_eq_true] at h
      intro d hd
      rcases List.mem_cons.1 hd with rfl | hd
      · have hstart := h.1.1
        simp only [isPlainStart, Bool.or_eq_true] at hstart
        rcases hstart with hlower | hline
        · simp [isPlainRest, hlower]
        · simp [isPlainRest, of_decide_eq_true hline]
      · exact h.1.2 d hd

/-- A name is read back as it was written. -/
@[simp] theorem normalizeIdentifier_quoteIdent (name : Text) :
    normalizeIdentifier (quoteIdent name) = name := by
  by_cases h : isPlain name = true
  · have hrest := isPlainRest_of_isPlain h
    have hquote : name.head? ≠ some '"' := by
      intro hhead
      exact absurd (hrest '"' (List.mem_of_mem_head? hhead)) (by decide)
    rw [quoteIdent, if_pos h, normalizeIdentifier,
      if_neg fun hquoted => hquote hquoted.2.1]
    calc name.map Char.toLower = name.map id :=
          List.map_congr_left fun c hc => toLower_of_isPlainRest (hrest c hc)
      _ = name := List.map_id name
  · rw [quoteIdent, if_neg h, normalizeIdentifier, if_pos ?_]
    · simp
    · rw [List.cons_append, List.getLast?_cons_of_ne_nil (by simp)]
      simp

/-! ## Qualified names -/

/-- The identifiers of a dotted name: it is cut at the dots outside quotes. -/
def splitReference (quoted : Bool) : Text → List Text
  | [] => [[]]
  | c :: text =>
      if c = '.' ∧ quoted = false then [] :: splitReference false text
      else
        (splitReference (if c = '"' then !quoted else quoted) text).modifyHead
          (c :: ·)

/-- The names that an analysis reads in a written reference. -/
def referenceNames (written : Text) : List Text :=
  (splitReference false written).map normalizeIdentifier

/-- Outside of quotes a name without dots and quotes is one identifier. -/
theorem splitReference_plain {a : Text} (ha : ∀ c ∈ a, c ≠ '.' ∧ c ≠ '"')
    (rest : Text) :
    splitReference false (a ++ rest) =
      (splitReference false rest).modifyHead (a ++ ·) := by
  induction a with
  | nil =>
      rw [List.nil_append]
      cases splitReference false rest <;> rfl
  | cons c a ih =>
      have hc := ha c (by simp)
      rw [List.cons_append, splitReference, if_neg (fun h => hc.1 h.1),
        if_neg hc.2, ih fun d hd => ha d (by simp [hd])]
      cases splitReference false rest <;> rfl

/-- Inside of quotes everything up to the closing quote belongs to the name. -/
theorem splitReference_escaped (a rest : Text) :
    splitReference true (escapeQuotes a ++ '"' :: rest) =
      (splitReference false rest).modifyHead (escapeQuotes a ++ '"' :: ·) := by
  induction a with
  | nil => simp [escapeQuotes, splitReference]
  | cons c a ih =>
      by_cases hc : c = '"'
      · subst hc
        simp only [escapeQuotes, if_true, List.cons_append, splitReference,
          Bool.not_true, Bool.not_false, ih]
        cases splitReference false rest <;> simp
      · simp only [escapeQuotes, if_neg hc, List.cons_append, splitReference,
          ih]
        cases splitReference false rest <;> simp

theorem splitReference_quoteIdent (name rest : Text) :
    splitReference false (quoteIdent name ++ rest) =
      (splitReference false rest).modifyHead (quoteIdent name ++ ·) := by
  by_cases h : isPlain name = true
  · rw [quoteIdent, if_pos h]
    apply splitReference_plain
    intro c hc
    have hplain := isPlainRest_of_isPlain h c hc
    constructor
    · rintro rfl
      exact absurd hplain (by decide)
    · rintro rfl
      exact absurd hplain (by decide)
  · rw [quoteIdent, if_neg h]
    simp only [List.cons_append, List.append_assoc, List.nil_append,
      splitReference]
    rw [if_neg (by decide), if_pos trivial, Bool.not_false,
      splitReference_escaped]
    cases splitReference false rest <;> simp

theorem referenceNames_quoteIdent (name : Text) :
    referenceNames (quoteIdent name) = [name] := by
  have h := splitReference_quoteIdent name []
  rw [List.append_nil] at h
  simp [referenceNames, h, splitReference]

theorem referenceNames_qualified (owner name : Text) :
    referenceNames (quoteIdent owner ++ '.' :: quoteIdent name)
      = [owner, name] := by
  have h := splitReference_quoteIdent name []
  rw [List.append_nil] at h
  have hdot : splitReference false ('.' :: quoteIdent name) =
      [] :: splitReference false (quoteIdent name) := by
    rw [splitReference, if_pos ⟨rfl, rfl⟩]
  rw [referenceNames, splitReference_quoteIdent, hdot, h]
  simp [splitReference]

end Tempr.Intel
