import Tempr.Intel.FuzzySubsequence

/-!
# Bands of scores

One number holds the weight of a candidate, how its label matches, and the
length of the label. Weights are never outweighed. A fuzzy match scores with the
length of what is typed, and from a length on more than a prefix: up to there
the matches are in bands, and beyond it there are labels that leave their band.
-/

namespace Tempr.Intel

open Tempr.Editor (Rope)
open Tempr.Editor.Rope (lenBytes)

/-! ## Candidates and classes -/

/-- How long a label is at most. -/
def labelLimit : ℕ := 127

section Classes

variable [CharTables] [Unicode]

def MatchesExactly (typed label : Text) : Prop :=
  typed <+: label

def MatchesFolded (typed label : Text) : Prop :=
  ¬ typed <+: label ∧ toLowercase typed <+: toLowercase label

def MatchesFuzzily (typed label : Text) : Prop :=
  ¬ typed <+: label ∧ ¬ toLowercase typed <+: toLowercase label ∧
    Occurs typed label

/-- A candidate that matches, with its score. -/
structure Banded (typed : Text) (a : Candidate) (x : Ranked) : Prop where
  scored : scored typed a = some x
  weight : a.weight ∈ generatorWeights
  label : a.label.length ≤ labelLimit

/-- What the generator offers has one of its weights. -/
theorem banded_of_mem_generate {Id : Type} {catalog : CatalogCache Id}
    {frames : List Frame} {cursor : CursorContext} {typed : Text}
    {a : Candidate}
    {x : Ranked} (ha : a ∈ generate catalog frames cursor)
    (hx : scored typed a = some x) (hlabel : a.label.length ≤ labelLimit) :
    Banded typed a x :=
  ⟨hx, (generate_isWeighed ha).mem, hlabel⟩

/-- The score tells first the weight, then the class of the match, and of
prefixes of one class the length of the label. -/
structure InBands (typed : Text) : Prop where
  weight : ∀ {a b x y}, Banded typed a x → Banded typed b y →
    b.weight < a.weight → y.score < x.score
  exact_folded : ∀ {a b x y}, Banded typed a x → Banded typed b y →
    a.weight = b.weight → MatchesExactly typed a.label →
      MatchesFolded typed b.label → y.score < x.score
  exact_fuzzy : ∀ {a b x y}, Banded typed a x → Banded typed b y →
    a.weight = b.weight → MatchesExactly typed a.label →
      MatchesFuzzily typed b.label → y.score < x.score
  folded_fuzzy : ∀ {a b x y}, Banded typed a x → Banded typed b y →
    a.weight = b.weight → MatchesFolded typed a.label →
      MatchesFuzzily typed b.label → y.score < x.score
  shorter_exact : ∀ {a b x y}, Banded typed a x → Banded typed b y →
    a.weight = b.weight → MatchesExactly typed a.label →
      MatchesExactly typed b.label → a.label.length < b.label.length →
        y.score < x.score
  shorter_folded : ∀ {a b x y}, Banded typed a x → Banded typed b y →
    a.weight = b.weight → MatchesFolded typed a.label →
      MatchesFolded typed b.label → a.label.length < b.label.length →
        y.score < x.score

end Classes

/-! ## What a fuzzy match scores -/

section Fuzzy

variable [CharTables] {candidate : Text} {q : Char} {matchedAt : Option ℕ}
  {hit : Hit}

/-- The most is scored by a hit that follows the last one. -/
theorem Hit.score_le : hit.score candidate q matchedAt ≤ 12 := by
  rw [Hit.score]
  generalize (matchedAt.any fun p =>
    decide ((Rope.byteSlice candidate p hit.index).length = 1)) = consecutive
  cases consecutive with
  | true =>
    simp only [Bool.not_true, Bool.and_false, Bool.false_eq_true, if_true,
      if_false]
    split_ifs <;> omega
  | false =>
    simp only [Bool.false_eq_true, if_false]
    split_ifs <;> omega

/-- The first hit follows nothing. -/
theorem Hit.score_none_le : hit.score candidate q none ≤ 8 := by
  simp only [Hit.score, Option.any_none, Bool.false_eq_true, if_false]
  split_ifs <;> omega

theorem Hit.le_score : 1 - (hit.gap : ℤ) ≤ hit.score candidate q matchedAt := by
  rw [Hit.score]
  split_ifs <;> omega

/-- What a match scores lies between what is passed and what hits score at most,
and the text has a character for each hit. -/
theorem fuzzyMatchFrom_score (query : List Char) :
    ∀ (rest : List Char) (index : ℕ) (matchedAt : Option ℕ)
      (previous : Option Char) (found : FuzzyMatch),
      fuzzyMatchFrom candidate index matchedAt previous query rest =
        some found →
        -(rest.length : ℤ) ≤ found.score ∧ found.score ≤ 12 * query.length ∧
          query.length ≤ rest.length := by
  induction query with
  | nil =>
    intro rest index matchedAt previous found h
    obtain rfl := Option.some.inj h
    simp
  | cons q query ih =>
    intro rest index matchedAt previous found h
    obtain ⟨hit, more, hhit, hmore, rfl⟩ := fuzzyMatchFrom_cons_eq_some h
    obtain ⟨skipped, hrest, -, -, -, hgap, -⟩ := findHit_spec hhit
    obtain ⟨hlow, hhigh, hlen⟩ := ih _ _ _ _ _ hmore
    have hscoreLe : hit.score candidate q matchedAt ≤ 12 := Hit.score_le
    have hleScore : 1 - (hit.gap : ℤ) ≤ hit.score candidate q matchedAt :=
      Hit.le_score
    have hlength := congrArg List.length hrest
    rw [List.length_append, List.length_cons] at hlength
    rw [List.length_cons]
    push_cast
    exact ⟨by omega, by omega, by omega⟩

/-- A match of a query scores less than if the first hit, too, had one before
it. -/
theorem fuzzyMatch_score {query label : Text} (hquery : query ≠ [])
    {found : FuzzyMatch} (h : fuzzyMatch query label = some found) :
    -(label.length : ℤ) ≤ found.score ∧ found.score ≤ 12 * query.length - 4 ∧
      query.length ≤ label.length := by
  obtain ⟨hlow, -, hlen⟩ := fuzzyMatchFrom_score query _ _ _ _ _ h
  refine ⟨hlow, ?_, hlen⟩
  cases query with
  | nil => exact absurd rfl hquery
  | cons q query =>
    obtain ⟨hit, more, -, hmore, rfl⟩ := fuzzyMatchFrom_cons_eq_some h
    obtain ⟨-, hhigh, -⟩ := fuzzyMatchFrom_score query _ _ _ _ _ hmore
    have hfirst : hit.score label q none ≤ 8 := Hit.score_none_le
    rw [List.length_cons]
    push_cast
    omega

end Fuzzy

/-! ## The bands -/

section Bands

variable [CharTables] [Unicode] {typed : Text} {a b : Candidate} {x y : Ranked}

theorem matchQuality_of_exact {label : Text} (hne : typed ≠ [])
    (h : MatchesExactly typed label) : matchQuality typed label = some 400 := by
  rw [matchQuality, if_neg (by simpa using hne),
    if_pos (List.isPrefixOf_iff_prefix.mpr h)]

omit [CharTables] [Unicode] in
/-- What matches but not with its case is not empty. -/
theorem ne_nil_of_unprefixed {label : Text} (h : ¬ typed <+: label) :
    typed ≠ [] := by
  rintro rfl
  exact h List.nil_prefix

theorem matchQuality_of_folded {label : Text} (h : MatchesFolded typed label) :
    matchQuality typed label = some 300 := by
  have hne := ne_nil_of_unprefixed h.1
  rw [matchQuality, if_neg (by simpa using hne),
    if_neg (fun hp => h.1 (List.isPrefixOf_iff_prefix.mp hp)),
    if_pos (List.isPrefixOf_iff_prefix.mpr h.2)]

theorem matchQuality_of_fuzzy {label : Text} (h : MatchesFuzzily typed label) :
    matchQuality typed label =
      (fuzzyMatch typed label).map FuzzyMatch.score := by
  have hne := ne_nil_of_unprefixed h.1
  rw [matchQuality, if_neg (by simpa using hne),
    if_neg (fun hp => h.1 (List.isPrefixOf_iff_prefix.mp hp)),
    if_neg (fun hp => h.2.1 (List.isPrefixOf_iff_prefix.mp hp))]

theorem score_of_quality (hx : scored typed a = some x) {quality : ℤ}
    (hquality : matchQuality typed a.label = some quality) :
    x.score = a.weight * 1000 + quality * 4 - a.label.length := by
  rw [scored, hquality] at hx
  rw [← Option.some.inj hx]

theorem score_of_exact (hx : scored typed a = some x) (hne : typed ≠ [])
    (h : MatchesExactly typed a.label) :
    x.score = a.weight * 1000 + 1600 - a.label.length :=
  score_of_quality hx (matchQuality_of_exact hne h)

theorem score_of_folded (hx : scored typed a = some x)
    (h : MatchesFolded typed a.label) :
    x.score = a.weight * 1000 + 1200 - a.label.length :=
  score_of_quality hx (matchQuality_of_folded h)

theorem score_of_fuzzy (hx : scored typed a = some x)
    (h : MatchesFuzzily typed a.label) :
    ∃ found, fuzzyMatch typed a.label = some found ∧
      x.score = a.weight * 1000 + found.score * 4 - a.label.length := by
  have hsome : (fuzzyMatch typed a.label).isSome :=
    (fuzzyMatch_isSome_iff typed a.label).mpr h.2.2
  obtain ⟨found, hfound⟩ := Option.isSome_iff_exists.mp hsome
  refine ⟨found, hfound, score_of_quality hx ?_⟩
  rw [matchQuality_of_fuzzy h, hfound]
  rfl

/-- A fuzzy match scores at most what `n` characters that are typed allow. -/
theorem score_le_of_fuzzy (hx : scored typed a = some x)
    (h : MatchesFuzzily typed a.label) :
    x.score ≤ a.weight * 1000 + 47 * typed.length - 16 := by
  obtain ⟨found, hfound, hscore⟩ := score_of_fuzzy hx h
  obtain ⟨-, hhigh, hlen⟩ := fuzzyMatch_score (ne_nil_of_unprefixed h.1) hfound
  rw [hscore]
  omega

/-- However a label matches, its quality is bounded by the lengths. -/
theorem matchQuality_bounds {label : Text} {quality : ℤ}
    (h : matchQuality typed label = some quality) :
    -(label.length : ℤ) ≤ quality ∧ quality ≤ 400 + 12 * typed.length := by
  rw [matchQuality] at h
  split_ifs at h with hempty
  · obtain rfl := Option.some.inj h
    omega
  · obtain rfl := Option.some.inj h
    omega
  · obtain rfl := Option.some.inj h
    omega
  · obtain ⟨found, hfound, rfl⟩ := Option.map_eq_some_iff.mp h
    have hne : typed ≠ [] := by simpa using hempty
    obtain ⟨hlow, hhigh, -⟩ := fuzzyMatch_score hne hfound
    omega

omit [CharTables] [Unicode] in
/-- Different weights are at least ten apart. -/
theorem weights_apart : ∀ v ∈ generatorWeights, ∀ w ∈ generatorWeights,
    v < w → v + 10 ≤ w := by
  decide

/-- What a label scores is less than what is between two weights. -/
theorem score_lt_of_weight (htyped : typed.length ≤ labelLimit)
    (ha : Banded typed a x) (hb : Banded typed b y)
    (hweight : b.weight < a.weight) :
    y.score < x.score := by
  obtain ⟨quality, hquality, rfl⟩ := Option.map_eq_some_iff.mp ha.scored
  obtain ⟨quality', hquality', rfl⟩ := Option.map_eq_some_iff.mp hb.scored
  obtain ⟨hlow, -⟩ := matchQuality_bounds hquality
  obtain ⟨-, hhigh⟩ := matchQuality_bounds hquality'
  have hapart := weights_apart _ hb.weight _ ha.weight hweight
  have hlabel := ha.label
  rw [labelLimit] at htyped hlabel
  dsimp only
  omega

theorem score_lt_of_exact_folded (ha : Banded typed a x) (hb : Banded typed b y)
    (hweight : a.weight = b.weight) (hexact : MatchesExactly typed a.label)
    (hfolded : MatchesFolded typed b.label) : y.score < x.score := by
  have hne := ne_nil_of_unprefixed hfolded.1
  have hlabel := ha.label
  rw [labelLimit] at hlabel
  rw [score_of_exact ha.scored hne hexact, score_of_folded hb.scored hfolded]
  omega

/-- Up to 31 characters no fuzzy match comes up to an exact prefix. -/
theorem score_lt_of_exact_fuzzy (htyped : typed.length ≤ 31)
    (ha : Banded typed a x) (hb : Banded typed b y)
    (hweight : a.weight = b.weight)
    (hexact : MatchesExactly typed a.label)
    (hfuzzy : MatchesFuzzily typed b.label) :
    y.score < x.score := by
  have hne := ne_nil_of_unprefixed hfuzzy.1
  have hlabel := ha.label
  have hle := score_le_of_fuzzy hb.scored hfuzzy
  rw [labelLimit] at hlabel
  rw [score_of_exact ha.scored hne hexact]
  omega

/-- Up to 23 characters no fuzzy match comes up to a folded prefix. -/
theorem score_lt_of_folded_fuzzy (htyped : typed.length ≤ 23)
    (ha : Banded typed a x) (hb : Banded typed b y)
    (hweight : a.weight = b.weight)
    (hfolded : MatchesFolded typed a.label)
    (hfuzzy : MatchesFuzzily typed b.label) :
    y.score < x.score := by
  have hlabel := ha.label
  have hle := score_le_of_fuzzy hb.scored hfuzzy
  rw [labelLimit] at hlabel
  rw [score_of_folded ha.scored hfolded]
  omega

theorem score_lt_of_shorter_exact (ha : Banded typed a x)
    (hb : Banded typed b y)
    (hweight : a.weight = b.weight) (hexact : MatchesExactly typed a.label)
    (hexact' : MatchesExactly typed b.label)
    (hshorter : a.label.length < b.label.length) : y.score < x.score := by
  by_cases hne : typed = []
  · subst hne
    have hquality : ∀ label, matchQuality [] label = some 0 := fun _ => rfl
    rw [score_of_quality ha.scored (hquality _),
      score_of_quality hb.scored (hquality _)]
    omega
  · rw [score_of_exact ha.scored hne hexact,
      score_of_exact hb.scored hne hexact']
    omega

theorem score_lt_of_shorter_folded (ha : Banded typed a x)
    (hb : Banded typed b y)
    (hweight : a.weight = b.weight) (hfolded : MatchesFolded typed a.label)
    (hfolded' : MatchesFolded typed b.label)
    (hshorter : a.label.length < b.label.length) : y.score < x.score := by
  rw [score_of_folded ha.scored hfolded, score_of_folded hb.scored hfolded']
  omega

/-- There is a label that matches in the class. -/
def HasLabel (matching : Text → Text → Prop) (typed : Text) : Prop :=
  ∃ label, matching typed label ∧ label.length ≤ labelLimit

/-- What is typed is short enough for the bands, or the classes that would leave
theirs have no label. -/
def KeepsBands (typed : Text) : Prop :=
  typed.length ≤ 23 ∨ (typed.length ≤ 31 ∧ ¬ HasLabel MatchesFolded typed) ∨
    ¬ HasLabel MatchesFuzzily typed

theorem inBands_of_keepsBands (htyped : typed.length ≤ labelLimit)
    (h : KeepsBands typed) : InBands typed where
  weight := score_lt_of_weight htyped
  exact_folded := score_lt_of_exact_folded
  exact_fuzzy := by
    intro a b x y ha hb hweight hexact hfuzzy
    rcases h with h | ⟨h, -⟩ | h
    · exact score_lt_of_exact_fuzzy (by omega) ha hb hweight hexact hfuzzy
    · exact score_lt_of_exact_fuzzy h ha hb hweight hexact hfuzzy
    · exact absurd ⟨_, hfuzzy, hb.label⟩ h
  folded_fuzzy := by
    intro a b x y ha hb hweight hfolded hfuzzy
    rcases h with h | ⟨-, h⟩ | h
    · exact score_lt_of_folded_fuzzy h ha hb hweight hfolded hfuzzy
    · exact absurd ⟨_, hfolded, ha.label⟩ h
    · exact absurd ⟨_, hfuzzy, hb.label⟩ h
  shorter_exact := score_lt_of_shorter_exact
  shorter_folded := score_lt_of_shorter_folded

end Bands

/-! ## Matches without gaps -/

section Tight

variable [CharTables]

theorem sameLetter_self (c : Char) : sameLetter c c := by
  simp [sameLetter]

/-- The last hit is just before the next character. -/
theorem Hit.score_next {before : Text} {c : Char} {hit : Hit} (rest : Text)
    (q : Char)
    (hindex : hit.index = lenBytes before + c.utf8Size) (hgap : hit.gap = 0) :
    hit.score (before ++ c :: rest) q (some (lenBytes before)) =
      11 + (if hit.char = q then 1 else 0) := by
  have hslice : Rope.byteSlice (before ++ c :: rest) (lenBytes before)
      hit.index = [c] := by
    have hparts := Rope.byteSlice_parts before [c] rest
    rw [Rope.lenBytes_cons, Rope.lenBytes_nil, Nat.add_zero, List.append_assoc,
      List.singleton_append] at hparts
    rw [hindex, hparts]
  simp only [Hit.score, Option.any_some, hslice, List.length_singleton,
    decide_true, Bool.not_true, Bool.and_false, Bool.false_eq_true, if_true,
    if_false, hgap]
  omega

/-- A hit that leaves too little to skip anything hits the first character. -/
theorem findHit_tight {q c : Char} {index gap : ℕ} {previous : Option Char}
    {rest : List Char} {hit : Hit}
    (h : findHit q index gap previous (c :: rest) = some hit)
    (hlen : rest.length ≤ hit.rest.length) :
    hit.char = c ∧ hit.rest = rest ∧ hit.index = index ∧ hit.gap = gap := by
  obtain ⟨skipped, hrest, -, -, hindex, hgap, -⟩ := findHit_spec h
  cases skipped with
  | nil =>
    rw [List.nil_append, List.cons.injEq] at hrest
    exact ⟨hrest.1.symm, hrest.2.symm, hindex, hgap⟩
  | cons d skipped =>
    have hlength := congrArg List.length hrest
    simp only [List.length_append, List.length_cons] at hlength
    omega

/-- Against as many characters as the query has, each one hits the next one. -/
theorem fuzzyMatchFrom_tight (query : List Char) :
    ∀ (before : Text) (c : Char) (rest : Text) (found : FuzzyMatch),
      rest.length = query.length →
      fuzzyMatchFrom (before ++ c :: rest) (lenBytes before + c.utf8Size)
          (some (lenBytes before)) (some c) query rest = some found →
        found.score = 11 * query.length +
          (query.zip rest).countP fun pair => decide (pair.2 = pair.1) := by
  induction query with
  | nil =>
    intro before c rest found hlen h
    obtain rfl := Option.some.inj h
    rfl
  | cons q query ih =>
    intro before c rest found hlen h
    cases rest with
    | nil => cases hlen
    | cons d rest =>
      rw [List.length_cons, List.length_cons, Nat.add_right_cancel_iff] at hlen
      obtain ⟨hit, more, hhit, hmore, rfl⟩ := fuzzyMatchFrom_cons_eq_some h
      obtain ⟨-, -, hle⟩ := fuzzyMatchFrom_score query _ _ _ _ _ hmore
      obtain ⟨hchar, hrest, hindex, hgap⟩ := findHit_tight hhit (hlen ▸ hle)
      have htext : before ++ c :: d :: rest = before ++ [c] ++ d :: rest :=
        by simp
      have hbefore : lenBytes before + c.utf8Size =
          lenBytes (before ++ [c]) := by
        rw [Rope.lenBytes_append]
        rfl
      have hscore := Hit.score_next (d :: rest) q hindex hgap
      rw [hrest, hchar, hindex, htext, hbefore] at hmore
      have hmoreScore := ih (before ++ [c]) d rest more hlen hmore
      dsimp only
      rw [hscore, hmoreScore, hchar, List.zip_cons_cons, List.countP_cons,
        List.length_cons]
      simp only [decide_eq_true_eq]
      split_ifs <;> push_cast <;> omega

/-- A label as long as the query is hit at every character. -/
theorem fuzzyMatch_of_length_eq {query label : Text} (hquery : query ≠ [])
    (hlen : label.length = query.length) {found : FuzzyMatch}
    (h : fuzzyMatch query label = some found) :
    11 * (query.length : ℤ) - 10 ≤ found.score := by
  cases query with
  | nil => exact absurd rfl hquery
  | cons q query =>
    cases label with
    | nil => cases hlen
    | cons c rest =>
      rw [List.length_cons, List.length_cons, Nat.add_right_cancel_iff] at hlen
      obtain ⟨hit, more, hhit, hmore, rfl⟩ := fuzzyMatchFrom_cons_eq_some h
      obtain ⟨-, -, hle⟩ := fuzzyMatchFrom_score query _ _ _ _ _ hmore
      obtain ⟨hchar, hrest, hindex, hgap⟩ := findHit_tight hhit (hlen ▸ hle)
      rw [hchar, hrest, hindex] at hmore
      have hmoreScore := fuzzyMatchFrom_tight query [] c rest more hlen hmore
      have hleScore : 1 - (hit.gap : ℤ) ≤ hit.score (c :: rest) q none :=
        Hit.le_score
      rw [hgap] at hleScore
      rw [List.length_cons]
      push_cast at hleScore ⊢
      omega

omit [CharTables] in
theorem countP_zip_self (text : Text) :
    ((text.zip text).countP fun pair => decide (pair.2 = pair.1)) =
      text.length := by
  induction text with
  | nil => rfl
  | cons c text ih =>
    rw [List.zip_cons_cons, List.countP_cons, ih, if_pos (by simp),
      List.length_cons]

/-- Behind a character that belongs to no word the query is hit without a gap,
in its case. -/
theorem fuzzyMatch_behind {c q : Char} {query : Text} (hskip : ¬ sameLetter c q)
    (halpha : isAlphabetic c = false) (hnumeric : isNumeric c = false)
    {found : FuzzyMatch}
    (h : fuzzyMatch (q :: query) (c :: q :: query) = some found) :
    found.score = 12 * (q :: query).length - 5 := by
  have hhit : findHit q 0 0 none (c :: q :: query) =
      some ⟨0 + c.utf8Size, q, 1, some c, query⟩ := by
    rw [findHit, if_neg hskip, findHit, if_pos (sameLetter_self q)]
  rw [fuzzyMatch, fuzzyMatchFrom_cons hhit] at h
  obtain ⟨more, hmore, rfl⟩ := Option.map_eq_some_iff.mp h
  have hbefore : 0 + c.utf8Size = lenBytes [c] := by
    rw [Nat.zero_add]
    rfl
  rw [hbefore] at hmore
  have hmoreScore := fuzzyMatchFrom_tight query [c] q query more rfl hmore
  rw [countP_zip_self] at hmoreScore
  have hfirst : Hit.score (c :: q :: query) q none
      ⟨0 + c.utf8Size, q, 1, some c, query⟩ = 7 := by
    simp [Hit.score, Hit.isWordStart, halpha, hnumeric]
  rw [hfirst, hmoreScore, List.length_cons]
  push_cast
  omega

end Tight

/-! ## Labels that leave their band -/

/-- Characters that belong to no word. -/
def breakChars : List Char := [' ', '-', '_', '/']

theorem exists_break {others : List Char} (h : others.length < 4) :
    ∃ c ∈ breakChars, c ∉ others := by
  by_contra hnone
  push Not at hnone
  have hle :=
    List.Nodup.length_le_of_subset (by decide : breakChars.Nodup) hnone
  have hfour : breakChars.length = 4 := rfl
  omega

theorem breakChars_ascii : ∀ c ∈ breakChars, c.toNat < 128 ∧ c.isAlpha = false ∧
    c.isDigit = false ∧ c.toLower = c := by
  intro c hc
  simp only [breakChars, List.mem_cons, List.not_mem_nil, or_false] at hc
  rcases hc with rfl | rfl | rfl | rfl
  all_goals exact ⟨by decide, by decide, by decide, by decide⟩

/-- The label with spaces behind it, as long as a label is at most. -/
def padded (label : Text) : Text :=
  label ++ List.replicate (labelLimit - label.length) ' '

theorem length_padded {label : Text} (h : label.length ≤ labelLimit) :
    (padded label).length = labelLimit := by
  rw [padded, List.length_append, List.length_replicate]
  omega

theorem occurs_self [CharTables] (text : Text) : Occurs text text := by
  induction text with
  | nil => exact .nil
  | cons c text ih => exact ih.cons (sameLetter_self c)

section Labels

variable [CharTables] [Unicode] (hempty : toLowercase [] = [])
  (hbreak : ∀ c ∈ breakChars, ∀ a b : Text,
    toLowercase (a ++ c :: b) = toLowercase a ++ c :: toLowercase b)
  {typed label : Text}

omit [CharTables] [Unicode] in
theorem matchesExactly_padded (typed : Text) :
    MatchesExactly typed (padded typed) :=
  List.prefix_append _ _

omit [CharTables] in
include hbreak in
/-- The lower casing of what follows a space does not reach the label. -/
theorem matchesFolded_padded (h : MatchesFolded typed label) :
    MatchesFolded typed (padded label) := by
  rw [padded]
  generalize labelLimit - label.length = count
  cases count with
  | zero => rwa [List.replicate_zero, List.append_nil]
  | succ count =>
    rw [List.replicate_succ]
    generalize List.replicate count ' ' = more
    have hlower := hbreak ' ' (by decide)
    refine ⟨fun hprefix => ?_, ?_⟩
    · rcases List.prefix_or_prefix_of_prefix hprefix
        (List.prefix_append _ _) with
        hshort | ⟨tail, rfl⟩
      · exact h.1 hshort
      · rw [List.prefix_append_right_inj] at hprefix
        cases tail with
        | nil => exact h.1 (by simp only [List.append_nil, List.prefix_rfl])
        | cons c tail =>
          obtain ⟨rfl, -⟩ := List.cons_prefix_cons.mp hprefix
          have hle := h.2.length_le
          rw [hlower, List.length_append, List.length_cons] at hle
          omega
    · rw [hlower]
      exact h.2.trans (List.prefix_append _ _)

include hempty hbreak in
/-- What is typed is found fuzzily behind a character that belongs to no word.
-/
theorem exists_matchesFuzzily_behind (htyped : typed ≠ [])
    (hlower : toLowercase typed ≠ []) :
    ∃ c, MatchesFuzzily typed (c :: typed) ∧
      ∀ found, fuzzyMatch typed (c :: typed) = some found →
        found.score = 12 * typed.length - 5 := by
  obtain ⟨q, query, rfl⟩ := List.exists_cons_of_ne_nil htyped
  obtain ⟨first, lower, hfirst⟩ := List.exists_cons_of_ne_nil hlower
  -- it is neither what is typed first nor what that is folded to
  have hthree : [q.toLower, (lowercaseChar q).headD q, first].length < 4 :=
    Nat.lt_succ_self 3
  obtain ⟨c, hc, hother⟩ := exists_break hthree
  obtain ⟨hascii, halpha, hdigit, hlowerChar⟩ := breakChars_ascii c hc
  simp only [List.mem_cons, List.not_mem_nil, or_false, not_or] at hother
  obtain ⟨hne, hneChar, hneFirst⟩ := hother
  have hskip : ¬ sameLetter c q := by
    rw [sameLetter, hlowerChar, CharTables.lowercaseChar_ascii c hascii,
      hlowerChar]
    simp only [Bool.or_eq_true, decide_eq_true_eq, not_or]
    refine ⟨hne, fun h => hneChar ?_⟩
    rw [← h]
    rfl
  have hfolded : toLowercase (c :: q :: query) = c :: first :: lower := by
    have h := hbreak c hc [] (q :: query)
    rwa [hempty, List.nil_append, List.nil_append, hfirst] at h
  refine ⟨c, ⟨fun hprefix => ?_, fun hprefix => ?_, ?_⟩, ?_⟩
  · obtain ⟨rfl, -⟩ := List.cons_prefix_cons.mp hprefix
    exact hskip (sameLetter_self q)
  · rw [hfolded, hfirst] at hprefix
    exact hneFirst (List.cons_prefix_cons.mp hprefix).1.symm
  · exact (occurs_self _).cons_right
  · intro found hfound
    apply fuzzyMatch_behind hskip _ _ hfound
    · rw [CharTables.isAlphabetic_ascii c hascii, halpha]
    · rw [CharTables.isNumeric_ascii c hascii, hdigit]

include hempty hbreak in
/-- From 24 characters on a fuzzy match can come up to a folded prefix, and from
32 on to an exact one. -/
theorem exists_high_fuzzy (htyped : typed.length ≤ labelLimit)
    (hlong : 24 ≤ typed.length) (hlabel : HasLabel MatchesFuzzily typed) :
    ∃ label found, MatchesFuzzily typed label ∧ label.length ≤ labelLimit ∧
      fuzzyMatch typed label = some found ∧
      1073 ≤ found.score * 4 - label.length ∧
      (32 ≤ typed.length → 1473 ≤ found.score * 4 - label.length) := by
  obtain ⟨label, hfuzzy, hlen⟩ := hlabel
  have hne := ne_nil_of_unprefixed hfuzzy.1
  rcases Nat.lt_or_ge typed.length labelLimit with hroom | hfull
  · have hlower : toLowercase typed ≠ [] :=
      ne_nil_of_unprefixed hfuzzy.2.1
    obtain ⟨c, hmatches, hscore⟩ :=
      exists_matchesFuzzily_behind hempty hbreak hne hlower
    have hsome := (fuzzyMatch_isSome_iff typed (c :: typed)).mpr hmatches.2.2
    obtain ⟨found, hfound⟩ := Option.isSome_iff_exists.mp hsome
    have hfoundScore := hscore found hfound
    have hlength : (c :: typed).length = typed.length + 1 := List.length_cons
    refine ⟨c :: typed, found, hmatches, by omega, hfound, ?_,
      fun hlonger => ?_⟩
    · rw [hfoundScore, hlength]
      push_cast
      omega
    · rw [hfoundScore, hlength]
      push_cast
      omega
  · -- as long as a label is at most: it is hit at every character
    have hsome := (fuzzyMatch_isSome_iff typed label).mpr hfuzzy.2.2
    obtain ⟨found, hfound⟩ := Option.isSome_iff_exists.mp hsome
    obtain ⟨-, -, hle⟩ := fuzzyMatch_score hne hfound
    have hscore := fuzzyMatch_of_length_eq hne (by omega) hfound
    rw [labelLimit] at htyped hlen hfull
    exact ⟨label, found, hfuzzy, hlen, hfound, by omega, fun _ => by omega⟩

omit [Unicode] in
/-- A column of that name. -/
def columnOf (label : Text) : Candidate :=
  ownedColumnCandidate none (label, none)

theorem banded_columnOf {quality : ℤ} (hlen : label.length ≤ labelLimit)
    (hquality : matchQuality typed label = some quality) :
    Banded typed (columnOf label)
      ⟨weightColumn * 1000 + quality * 4 - label.length, columnOf label⟩ where
  scored := by
    rw [scored, columnOf, ownedColumnCandidate, hquality]
    rfl
  weight := List.mem_cons_self
  label := hlen

/-- Where scores are in bands, no column that is found as a fuzzy match comes up
to one that is found by a folded prefix. -/
theorem InBands.fuzzy_lt_folded (h : InBands typed) {folded fuzzy : Text}
    {quality : ℤ} (hfolded : MatchesFolded typed folded)
    (hfoldedLen : folded.length ≤ labelLimit)
    (hfuzzy : MatchesFuzzily typed fuzzy) (hfuzzyLen : fuzzy.length ≤ labelLimit)
    (hquality : matchQuality typed fuzzy = some quality) :
    quality * 4 - fuzzy.length < 300 * 4 - folded.length := by
  have ha := banded_columnOf hfoldedLen (matchQuality_of_folded hfolded)
  have hb := banded_columnOf hfuzzyLen hquality
  have hlt := h.folded_fuzzy ha hb rfl hfolded hfuzzy
  dsimp only at hlt
  omega

include hempty hbreak in
theorem keepsBands_of_inBands (htyped : typed.length ≤ labelLimit)
    (h : InBands typed) : KeepsBands typed := by
  by_contra hnot
  simp only [KeepsBands, not_or, not_and, not_not, not_le] at hnot
  obtain ⟨hlong, hfolded, hfuzzy⟩ := hnot
  have hne : typed ≠ [] := by
    rintro rfl
    exact absurd hlong (Nat.not_lt_zero 23)
  obtain ⟨label, found, hmatches, hlen, hfound, hlow, hhigh⟩ :=
    exists_high_fuzzy hempty hbreak htyped hlong hfuzzy
  have hquality : matchQuality typed label = some found.score := by
    rw [matchQuality_of_fuzzy hmatches, hfound]
    rfl
  rcases Nat.lt_or_ge typed.length 32 with hshort | hlonger
  · -- a folded prefix, as long as a label is at most
    obtain ⟨folded, hmatches', hlen'⟩ := hfolded (by omega)
    have hpadded := matchesFolded_padded hbreak hmatches'
    have hlength := length_padded hlen'
    have hlt := h.fuzzy_lt_folded hpadded hlength.le hmatches hlen hquality
    rw [hlength, labelLimit] at hlt
    omega
  · -- an exact one
    have hpadded := matchesExactly_padded typed
    have hlength := length_padded htyped
    have ha := banded_columnOf hlength.le (matchQuality_of_exact hne hpadded)
    have hb := banded_columnOf hlen hquality
    have hlt := h.exact_fuzzy ha hb rfl hpadded hmatches
    have hscore := hhigh hlonger
    dsimp only at hlt
    rw [hlength, labelLimit] at hlt
    omega

include hempty hbreak in
/-- Scores are in bands just when what is typed is short enough, or has no label
in a class that would leave its band. -/
theorem inBands_iff (htyped : typed.length ≤ labelLimit) :
    InBands typed ↔ KeepsBands typed :=
  ⟨keepsBands_of_inBands hempty hbreak htyped, inBands_of_keepsBands htyped⟩

end Labels

section Sample

local instance asciiBands : Unicode := Unicode.ascii

local instance charsBands : CharTables := CharTables.ascii

/-- Up to 23 characters the scores are in bands. -/
theorem inBands_iff_short : InBands "users".toList := by
  have hbreak : ∀ c ∈ breakChars, ∀ a b : Text,
      toLowercase (a ++ c :: b) = toLowercase a ++ c :: toLowercase b := by
    intro c hc a b
    have hlower := (breakChars_ascii c hc).2.2.2
    change (a ++ c :: b).map Char.toLower =
      a.map Char.toLower ++ c :: b.map Char.toLower
    rw [List.map_append, List.map_cons, hlower]
  exact (inBands_iff rfl hbreak (by decide)).mpr (Or.inl (by decide))

/-- With 26 characters a fuzzy match is ranked before a folded prefix. -/
theorem fuzzy_before_folded :
    ¬ InBands "abcdefghijklmnopqrstuvwxyz".toList := by
  intro h
  have hfolded : MatchesFolded "abcdefghijklmnopqrstuvwxyz".toList
      "ABCDEFGHIJKLMNOPQRSTUVWXYZ".toList :=
    ⟨by decide +kernel, by decide +kernel⟩
  have hoccurs : Occurs "abcdefghijklmnopqrstuvwxyz".toList
      "_abcdefghijklmnopqrstuvwxyz".toList :=
    (fuzzyMatch_isSome_iff _ _).mp (by decide +kernel)
  have hfuzzy : MatchesFuzzily "abcdefghijklmnopqrstuvwxyz".toList
      "_abcdefghijklmnopqrstuvwxyz".toList :=
    ⟨by decide +kernel, by decide +kernel, hoccurs⟩
  have hquality : matchQuality "abcdefghijklmnopqrstuvwxyz".toList
      "_abcdefghijklmnopqrstuvwxyz".toList = some 307 := by decide +kernel
  have hlt := h.fuzzy_lt_folded hfolded (by decide) hfuzzy (by decide) hquality
  exact absurd hlt (by decide)

end Sample

end Tempr.Intel
