import Tempr.Intel.Completion
import Tempr.Intel.LexerRounds
import Tempr.Support.Subsequence

/-!
# Fuzzy matches

A query matches a candidate when its characters occur there in their order, up
to case. The greedy search finds the characters whenever they are there, and
reports where they stand.
-/

namespace Tempr.Intel

open Tempr.Support Tempr.Support.Subsequence
open Tempr.Editor (Rope)
open Tempr.Editor.Rope (lenBytes)

variable [CharTables]

/-- A character of the candidate matches one of the query. -/
def Matches (q c : Char) : Prop :=
  sameLetter c q

/-- The characters of the query occur in the text in their order, up to case. -/
def Occurs (query text : Text) : Prop :=
  List.SublistForall₂ Matches query text

/-! ## The next character -/

section Hit

variable {q : Char} {index gap : ℕ} {previous : Option Char} {rest : List Char}

theorem findHit_eq_none_iff :
    findHit q index gap previous rest = none ↔
      ∀ c ∈ rest, ¬ sameLetter c q := by
  induction rest generalizing index gap previous with
  | nil => simp [findHit]
  | cons c rest ih =>
    rw [findHit]
    by_cases hc : sameLetter c q
    · simp [hc]
    · rw [if_neg hc, ih, List.forall_mem_cons]
      exact (and_iff_right hc).symm

/-- What is passed does not match, and what is found does. -/
theorem findHit_spec {hit : Hit}
    (h : findHit q index gap previous rest = some hit) :
    ∃ skipped, rest = skipped ++ hit.char :: hit.rest ∧
      (∀ c ∈ skipped, ¬ sameLetter c q) ∧ sameLetter hit.char q ∧
      hit.index = index + lenBytes skipped ∧
      hit.gap = gap + skipped.length ∧
      hit.previous = skipped.getLast?.or previous := by
  induction rest generalizing index gap previous with
  | nil => cases h
  | cons c rest ih =>
    rw [findHit] at h
    by_cases hc : sameLetter c q
    · rw [if_pos hc, Option.some.injEq] at h
      subst h
      exact ⟨[], rfl, by simp, hc, rfl, rfl, rfl⟩
    · rw [if_neg hc] at h
      obtain ⟨skipped, hrest, hskipped, hmatch, hindex, hgap, hprevious⟩ := ih h
      refine ⟨c :: skipped, ?_, List.forall_mem_cons.mpr ⟨hc, hskipped⟩, hmatch,
        ?_, ?_, ?_⟩
      · rw [List.cons_append, ← hrest]
      · rw [hindex, Rope.lenBytes_cons]
        omega
      · rw [hgap, List.length_cons]
        omega
      · rw [hprevious]
        cases skipped <;> simp [List.getLast?_cons]

/-- Nothing is lost by taking the next character that matches. -/
theorem occurs_iff_of_findHit {hit : Hit} {query : Text}
    (h : findHit q index gap previous rest = some hit) :
    Occurs (q :: query) rest ↔ Occurs query hit.rest := by
  obtain ⟨skipped, hrest, hskipped, hmatch, -⟩ := findHit_spec h
  have hmatches : Matches q hit.char := hmatch
  rw [hrest]
  exact (sublistForall₂_append_iff_of_skip hskipped).trans
    (sublistForall₂_cons_iff_of_match hmatches)

theorem not_occurs_of_findHit {query : Text}
    (h : findHit q index gap previous rest = none) :
    ¬ Occurs (q :: query) rest := by
  have hskipped := findHit_eq_none_iff.mp h
  intro hoccurs
  rw [← List.append_nil rest] at hoccurs
  cases (sublistForall₂_append_iff_of_skip hskipped).mp hoccurs

end Hit

/-! ## The whole match -/

variable {candidate : Text} {query rest : List Char} {index : ℕ}
  {matchedAt : Option ℕ} {previous : Option Char} {found : FuzzyMatch}

/-- A match of the first character, and the matches of the others. -/
theorem fuzzyMatchFrom_cons_eq_some {q : Char}
    (h : fuzzyMatchFrom candidate index matchedAt previous (q :: query) rest =
      some found) :
    ∃ hit more, findHit q index 0 previous rest = some hit ∧
      fuzzyMatchFrom candidate (hit.index + hit.char.utf8Size) (some hit.index)
        (some hit.char) query hit.rest = some more ∧
      found = ⟨hit.score candidate q matchedAt + more.score,
        hit.index :: more.indices⟩ := by
  obtain ⟨hit, hhit, h⟩ := Option.bind_eq_some_iff.mp h
  obtain ⟨more, hmore, h⟩ := Option.bind_eq_some_iff.mp h
  exact ⟨hit, more, hhit, hmore, (Option.some.inj h).symm⟩

theorem fuzzyMatchFrom_cons {q : Char} {hit : Hit}
    (h : findHit q index 0 previous rest = some hit) :
    fuzzyMatchFrom candidate index matchedAt previous (q :: query) rest =
      (fuzzyMatchFrom candidate (hit.index + hit.char.utf8Size)
        (some hit.index) (some hit.char) query hit.rest).map fun more =>
          ⟨hit.score candidate q matchedAt + more.score,
            hit.index :: more.indices⟩ := by
  rw [fuzzyMatchFrom, h, Option.map_eq_bind]
  rfl

theorem fuzzyMatchFrom_isSome_iff (candidate : Text) (query rest : List Char) :
    ∀ (index : ℕ) (matchedAt : Option ℕ) (previous : Option Char),
      (fuzzyMatchFrom candidate index matchedAt previous query rest).isSome ↔
        Occurs query rest := by
  induction query generalizing rest with
  | nil => exact fun _ _ _ => iff_of_true rfl .nil
  | cons q query ih =>
    intro index matchedAt previous
    cases hfind : findHit q index 0 previous rest with
    | none =>
      rw [fuzzyMatchFrom, hfind]
      exact iff_of_false Bool.false_ne_true (not_occurs_of_findHit hfind)
    | some hit =>
      rw [fuzzyMatchFrom_cons hfind, Option.isSome_map, ih,
        occurs_iff_of_findHit hfind]

theorem fuzzyMatch_isSome_iff (query candidate : Text) :
    (fuzzyMatch query candidate).isSome ↔ Occurs query candidate :=
  fuzzyMatchFrom_isSome_iff candidate query candidate 0 none none

/-- The index is a character boundary, and the character there matches. -/
def PointsAt (candidate : Text) (i : ℕ) (q : Char) : Prop :=
  Rope.IsCharBoundary candidate i ∧
    ∃ c, (sliceFrom candidate i).bind List.head? = some c ∧ sameLetter c q

theorem pointsAt_append (before after : Text) {c q : Char}
    (h : sameLetter c q) :
    PointsAt (before ++ c :: after) (lenBytes before) q := by
  refine ⟨isBoundary_append_left before (c :: after), c, ?_, h⟩
  rw [sliceFrom_append, Option.bind_some, List.head?_cons]

/-- The indices of what is matched after `before` lie after it, in their order,
and point at the characters that match. -/
theorem fuzzyMatchFrom_indices (query : List Char) :
    ∀ (before rest : Text) (matchedAt : Option ℕ) (previous : Option Char)
      (found : FuzzyMatch),
      fuzzyMatchFrom (before ++ rest) (lenBytes before) matchedAt previous query
          rest = some found →
        found.indices.Pairwise (· < ·) ∧
          (∀ i ∈ found.indices, lenBytes before ≤ i) ∧
          List.Forall₂ (PointsAt (before ++ rest)) found.indices query := by
  induction query with
  | nil =>
    intro before rest matchedAt previous found h
    obtain rfl := Option.some.inj h
    exact ⟨.nil, by simp, .nil⟩
  | cons q query ih =>
    intro before rest matchedAt previous found h
    cases hfind : findHit q (lenBytes before) 0 previous rest with
    | none =>
      rw [fuzzyMatchFrom, hfind] at h
      cases h
    | some hit =>
      rw [fuzzyMatchFrom_cons hfind] at h
      obtain ⟨more, hmore, rfl⟩ := Option.map_eq_some_iff.mp h
      obtain ⟨skipped, hrest, -, hmatch, hindex, -⟩ := findHit_spec hfind
      have hlen : hit.index = lenBytes (before ++ skipped) := by
        rw [hindex, Rope.lenBytes_append]
      have hnext : hit.index + hit.char.utf8Size =
          lenBytes (before ++ skipped ++ [hit.char]) := by
        rw [hlen, Rope.lenBytes_append (before ++ skipped)]
        rfl
      have htext : before ++ rest =
          before ++ skipped ++ [hit.char] ++ hit.rest := by
        rw [hrest]
        simp
      rw [htext, hnext] at hmore
      obtain ⟨hpairwise, hafter, hpoints⟩ := ih _ _ _ _ _ hmore
      rw [← htext] at hpoints
      have hpos := Rope.utf8Size_pos hit.char
      refine ⟨?_, ?_, ?_⟩
      · refine List.pairwise_cons.mpr ⟨fun i hi => ?_, hpairwise⟩
        have := hafter i hi
        omega
      · refine List.forall_mem_cons.mpr ⟨by omega, fun i hi => ?_⟩
        have := hafter i hi
        omega
      · refine List.Forall₂.cons ?_ hpoints
        have hpoint := pointsAt_append (before ++ skipped) hit.rest hmatch
        rw [hlen, hrest, ← List.append_assoc]
        exact hpoint

/-- There is a match just when the characters of the query occur in the
candidate, and its indices are increasing character boundaries that point at
characters that match those of the query, one each. -/
theorem fuzzyMatch_exact (query candidate : Text) :
    ((fuzzyMatch query candidate).isSome ↔
        List.SublistForall₂ (fun q c => sameLetter c q = true) query
          candidate) ∧
      ∀ found, fuzzyMatch query candidate = some found →
        found.indices.Pairwise (· < ·) ∧
          List.Forall₂ (PointsAt candidate) found.indices query := by
  refine ⟨fuzzyMatch_isSome_iff query candidate, ?_⟩
  intro found hfound
  obtain ⟨hpairwise, -, hpoints⟩ :=
    fuzzyMatchFrom_indices query [] candidate none none found hfound
  exact ⟨hpairwise, hpoints⟩

end Tempr.Intel
