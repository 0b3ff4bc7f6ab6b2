import Mathlib.Algebra.Ring.Nat
import Mathlib.Data.List.Flatten
import Mathlib.Data.List.Forall2
import Mathlib.Data.List.Indexes
import Mathlib.Data.List.TakeWhile
import Tempr.Support.SplitJoin

/-!
# Placeholders of a union

The fingerprint query is a union of segments, each of which numbers its
placeholders from `$1`.  The driver renumbers them, so that the segments take
their values from one list of binds.

An addition that overflows panics: a function that adds gives `none` then.
-/

namespace Tempr.DbPostgres

open Tempr.Support

/-- The text of a query. -/
abbrev Sql := List Char

/-! ## Renumbering -/

/-- The largest `usize`. -/
def usizeMax : ℕ := 2 ^ 64 - 1

def checkedAdd (a b : ℕ) : Option ℕ :=
  if a + b ≤ usizeMax then some (a + b) else none

/-- The number that a run of digits stands for. -/
def numberOf (digits : Sql) : ℕ := Nat.ofDigitChars 10 digits 0

/-- `str::parse` of a run of digits. -/
def parseUsize (digits : Sql) : Option ℕ :=
  if numberOf digits ≤ usizeMax then some (numberOf digits) else none

/-- Does the text begin with a digit? -/
def startsWithDigit (text : Sql) : Bool := text.head?.any Char.isDigit

/-- The digits that are written for those of a placeholder. -/
def shiftDigits (offset : ℕ) (digits : Sql) : Option Sql :=
  match parseUsize digits with
  | some n => do return Nat.toDigits 10 (← checkedAdd n offset)
  | none => some digits

/-- Go on behind `skip` characters, which belong to a placeholder already. -/
def shiftFrom (offset : ℕ) : ℕ → Sql → Option Sql
  | _, [] => some []
  | skip + 1, _ :: chars => shiftFrom offset skip chars
  | 0, c :: chars =>
      if c = '$' ∧ startsWithDigit chars = true then do
        let digits := chars.takeWhile Char.isDigit
        let number ← shiftDigits offset digits
        return '$' :: (number ++ (← shiftFrom offset digits.length chars))
      else do
        return c :: (← shiftFrom offset 0 chars)

/-- Add `offset` to the number of every placeholder. -/
def shiftPlaceholders (segment : Sql) (offset : ℕ) : Option Sql :=
  if offset = 0 then some segment else shiftFrom offset 0 segment

def shiftSegments : ℕ → List (Sql × ℕ) → Option (List Sql)
  | _, [] => some []
  | offset, (segment, count) :: rest => do
      let shifted ← shiftPlaceholders segment offset
      let offset ← checkedAdd offset count
      return shifted :: (← shiftSegments offset rest)

def unionAll : Sql := " UNION ALL ".toList

/-- Renumber the placeholders of each segment behind those of the segments
before it. -/
def renumberUnionSegments (sql : Sql) (bindsPerSegment : List ℕ) :
    Option Sql :=
  let segments := splitAtSep unionAll sql
  if segments.length ≠ bindsPerSegment.length then some sql
  else do
    return unionAll.intercalate
      (← shiftSegments 0 (segments.zip bindsPerSegment))

/-! ## How a text is read -/

/-- What a text is made of, as the server reads it: placeholders, with all the
digits behind a dollar, and other characters. -/
inductive Piece
  | char (c : Char)
  | placeholder (digits : Sql)
  deriving DecidableEq, Repr

def piecesFrom : ℕ → Sql → List Piece
  | _, [] => []
  | skip + 1, _ :: chars => piecesFrom skip chars
  | 0, c :: chars =>
      if c = '$' ∧ startsWithDigit chars = true then
        let digits := chars.takeWhile Char.isDigit
        .placeholder digits :: piecesFrom digits.length chars
      else .char c :: piecesFrom 0 chars

/-- The pieces of a text. -/
def pieces (text : Sql) : List Piece := piecesFrom 0 text

namespace Piece

def text : Piece → Sql
  | char c => [c]
  | placeholder digits => '$' :: digits

/-- The piece with `offset` added to the number of a placeholder. -/
def shift (offset : ℕ) : Piece → Piece
  | char c => char c
  | placeholder digits =>
      placeholder (Nat.toDigits 10 (numberOf digits + offset))

/-- A placeholder with a number from one to `n`, without leading zeros. -/
def UpTo (n : ℕ) : Piece → Prop
  | char _ => True
  | placeholder digits =>
      1 ≤ numberOf digits ∧ numberOf digits ≤ n ∧
        digits = Nat.toDigits 10 (numberOf digits)

instance (n : ℕ) : DecidablePred (UpTo n)
  | char _ => inferInstanceAs (Decidable True)
  | placeholder _ => inferInstanceAs (Decidable (_ ∧ _ ∧ _))

/-- The value of a placeholder among the binds, which are counted from one. -/
def resolve {β : Type*} (binds : List β) : Piece → Char ⊕ Option β
  | char c => .inl c
  | placeholder digits =>
      match numberOf digits with
      | 0 => .inr none
      | j + 1 => .inr binds[j]?

end Piece

/-- The only placeholders of a segment are `$1` to `$n`. -/
def UsesOnly (n : ℕ) (segment : Sql) : Prop :=
  ∀ piece ∈ pieces segment, piece.UpTo n

instance (n : ℕ) (segment : Sql) : Decidable (UsesOnly n segment) :=
  inferInstanceAs (Decidable (∀ piece ∈ pieces segment, piece.UpTo n))

/-- A text with the values that its placeholders stand for. -/
def meaning {β : Type*} (binds : List β) (text : Sql) :
    List (Char ⊕ Option β) :=
  (pieces text).map (Piece.resolve binds)

/-- A segment with `offset` added to the number of every placeholder. -/
def shifted (offset : ℕ) (segment : Sql) : Sql :=
  (pieces segment).flatMap fun piece => (piece.shift offset).text

/-! ## Pieces -/

theorem takeWhile_append_drop (p : Char → Bool) (chars : Sql) :
    chars.takeWhile p ++ chars.drop (chars.takeWhile p).length = chars := by
  have htake := List.prefix_iff_eq_take.mp
    ( List.takeWhile_prefix p : chars.takeWhile p <+: chars)
  conv_lhs => lhs; rw [htake]
  exact List.take_append_drop _ chars

/-- Behind the digits that were read there is no digit. -/
theorem startsWithDigit_drop (chars : Sql) :
    startsWithDigit (chars.drop (chars.takeWhile Char.isDigit).length) =
      false := by
  induction chars with
  | nil => rfl
  | cons c chars ih =>
      by_cases hc : c.isDigit = true
      · rw [List.takeWhile_cons_of_pos hc]
        exact ih
      · rw [List.takeWhile_cons_of_neg hc]
        simpa [startsWithDigit] using hc

theorem startsWithDigit_of_digits {digits : Sql} (hne : digits ≠ [])
    (hdigits : ∀ d ∈ digits, d.isDigit = true) (rest : Sql) :
    startsWithDigit (digits ++ rest) = true := by
  obtain ⟨d, digits, rfl⟩ := List.exists_cons_of_ne_nil hne
  simpa [startsWithDigit] using hdigits d (by simp)

theorem takeWhile_append_of_not_digit {digits rest : Sql}
    (hdigits : ∀ d ∈ digits, d.isDigit = true)
    (hrest : startsWithDigit rest = false) :
    (digits ++ rest).takeWhile Char.isDigit = digits := by
  have hnone : rest.takeWhile Char.isDigit = [] := by
    cases rest with
    | nil => rfl
    | cons c rest =>
        have hc : c.isDigit = false := by simpa [startsWithDigit] using hrest
        rw [List.takeWhile_cons_of_neg (by simp [hc])]
  rw [List.takeWhile_append_of_pos hdigits, hnone, List.append_nil]

theorem piecesFrom_eq (skip : ℕ) (chars : Sql) :
    piecesFrom skip chars = pieces (chars.drop skip) := by
  induction chars generalizing skip with
  | nil => simp [pieces, piecesFrom]
  | cons c chars ih =>
      cases skip with
      | zero => rfl
      | succ skip => exact ih skip

theorem pieces_char {c : Char} {chars : Sql}
    (h : ¬(c = '$' ∧ startsWithDigit chars = true)) :
    pieces (c :: chars) = .char c :: pieces chars := by
  rw [pieces, piecesFrom, if_neg h, pieces]

theorem pieces_placeholder {digits rest : Sql} (hne : digits ≠ [])
    (hdigits : ∀ d ∈ digits, d.isDigit = true)
    (hrest : startsWithDigit rest = false) :
    pieces ('$' :: (digits ++ rest)) = .placeholder digits :: pieces rest := by
  have hstarts := startsWithDigit_of_digits hne hdigits rest
  rw [pieces, piecesFrom, if_pos ⟨rfl, hstarts⟩]
  dsimp only
  rw [takeWhile_append_of_not_digit hdigits hrest, piecesFrom_eq,
    List.drop_left]

/-- A text is empty, or begins with a placeholder or with another character. -/
theorem pieces_induction {motive : Sql → Prop} (nil : motive [])
    (char : ∀ c chars, ¬(c = '$' ∧ startsWithDigit chars = true) →
      motive chars → motive (c :: chars))
    (placeholder : ∀ digits rest, digits ≠ [] →
      (∀ d ∈ digits, d.isDigit = true) → startsWithDigit rest = false →
      motive rest → motive ('$' :: (digits ++ rest)))
    (text : Sql) : motive text := by
  induction hlen : text.length using Nat.strongRecOn generalizing text with
  | ind n ih =>
      subst hlen
      cases text with
      | nil => exact nil
      | cons c chars =>
          by_cases h : c = '$' ∧ startsWithDigit chars = true
          · obtain ⟨rfl, hstarts⟩ := h
            have hcut := takeWhile_append_drop Char.isDigit chars
            have hne : chars.takeWhile Char.isDigit ≠ [] := by
              cases chars with
              | nil => simp [startsWithDigit] at hstarts
              | cons d chars =>
                  have hd : d.isDigit = true := by
                    simpa [startsWithDigit] using hstarts
                  simp [List.takeWhile_cons_of_pos hd]
            rw [← hcut]
            refine placeholder _ _ hne (fun d hd => ?_)
              (startsWithDigit_drop chars) (ih _ ?_ _ rfl)
            · exact List.mem_takeWhile_imp hd
            · rw [List.length_drop, List.length_cons]
              omega
          · exact char c chars h (ih _ (Nat.lt_succ_self _) chars rfl)

/-- Nothing of a text is lost when it is read. -/
theorem flatMap_text_pieces (text : Sql) :
    (pieces text).flatMap Piece.text = text := by
  induction text using pieces_induction with
  | nil => rfl
  | char c chars h ih => rw [pieces_char h, List.flatMap_cons, ih]; rfl
  | placeholder digits rest hne hdigits hrest ih =>
      rw [pieces_placeholder hne hdigits hrest, List.flatMap_cons, ih]
      rfl

theorem usesOnly_char_iff {n : ℕ} {c : Char} {chars : Sql}
    (h : ¬(c = '$' ∧ startsWithDigit chars = true)) :
    UsesOnly n (c :: chars) ↔ UsesOnly n chars := by
  simp only [UsesOnly, pieces_char h, List.forall_mem_cons, Piece.UpTo,
    true_and]

theorem usesOnly_placeholder_iff {n : ℕ} {digits rest : Sql}
    (hne : digits ≠ []) (hdigits : ∀ d ∈ digits, d.isDigit = true)
    (hrest : startsWithDigit rest = false) :
    UsesOnly n ('$' :: (digits ++ rest)) ↔
      (Piece.placeholder digits).UpTo n ∧ UsesOnly n rest := by
  simp only [UsesOnly, pieces_placeholder hne hdigits hrest,
    List.forall_mem_cons]

/-! ## Shifted segments -/

section Shifted

variable {offset : ℕ}

theorem shifted_char {c : Char} {chars : Sql}
    (h : ¬(c = '$' ∧ startsWithDigit chars = true)) :
    shifted offset (c :: chars) = c :: shifted offset chars := by
  rw [shifted, pieces_char h, List.flatMap_cons]
  rfl

theorem shifted_placeholder {digits rest : Sql} (hne : digits ≠ [])
    (hdigits : ∀ d ∈ digits, d.isDigit = true)
    (hrest : startsWithDigit rest = false) :
    shifted offset ('$' :: (digits ++ rest)) =
      '$' :: (Nat.toDigits 10 (numberOf digits + offset) ++
        shifted offset rest) := by
  rw [shifted, pieces_placeholder hne hdigits hrest, List.flatMap_cons]
  rfl

theorem startsWithDigit_shifted (text : Sql) :
    startsWithDigit (shifted offset text) = startsWithDigit text := by
  induction text using pieces_induction with
  | nil => rfl
  | char c chars h ih => rw [shifted_char h]; rfl
  | placeholder digits rest hne hdigits hrest ih =>
      rw [shifted_placeholder hne hdigits hrest]
      rfl

theorem isDigit_of_mem_toDigits {n : ℕ} {d : Char}
    (h : d ∈ Nat.toDigits 10 n) : d.isDigit = true :=
  Nat.isDigit_of_mem_toDigits (by decide) (by decide) h

theorem toDigits_ne_nil (n : ℕ) : Nat.toDigits 10 n ≠ [] := by
  rw [Nat.toDigits_eq_if (by decide)]
  split
  · exact List.cons_ne_nil _ _
  · exact List.append_ne_nil_of_right_ne_nil _ (List.cons_ne_nil _ _)

/-- A shifted segment is read as the pieces that it was written from. -/
theorem pieces_shifted (text : Sql) :
    pieces (shifted offset text) = (pieces text).map (Piece.shift offset) := by
  induction text using pieces_induction with
  | nil => rfl
  | char c chars h ih =>
      have h' : ¬(c = '$' ∧ startsWithDigit (shifted offset chars) = true) := by
        rwa [startsWithDigit_shifted]
      rw [shifted_char h, pieces_char h', pieces_char h, ih]
      rfl
  | placeholder digits rest hne hdigits hrest ih =>
      rw [shifted_placeholder hne hdigits hrest,
        pieces_placeholder (toDigits_ne_nil _)
          (fun _ => isDigit_of_mem_toDigits)
          (by rw [startsWithDigit_shifted, hrest]),
        pieces_placeholder hne hdigits hrest, ih]
      rfl

theorem shifted_zero {n : ℕ} {segment : Sql} (h : UsesOnly n segment) :
    shifted 0 segment = segment := by
  conv_rhs => rw [← flatMap_text_pieces segment]
  refine List.flatMap_congr fun piece hpiece => ?_
  have hupTo := h piece hpiece
  cases piece with
  | char c => rfl
  | placeholder digits =>
      rw [Piece.shift, Nat.add_zero, ← hupTo.2.2]

/-! ## The renumbered segments -/

theorem shiftFrom_eq (skip : ℕ) (chars : Sql) :
    shiftFrom offset skip chars = shiftFrom offset 0 (chars.drop skip) := by
  induction chars generalizing skip with
  | nil => simp [shiftFrom]
  | cons c chars ih =>
      cases skip with
      | zero => rfl
      | succ skip => exact ih skip

theorem shiftDigits_eq {n : ℕ} {digits : Sql}
    (h : (Piece.placeholder digits).UpTo n) (hfits : offset + n ≤ usizeMax) :
    shiftDigits offset digits =
      some (Nat.toDigits 10 (numberOf digits + offset)) := by
  have hle := h.2.1
  have hparse : parseUsize digits = some (numberOf digits) :=
    if_pos (by omega)
  have hadd : checkedAdd (numberOf digits) offset =
      some (numberOf digits + offset) := if_pos (by omega)
  simp only [shiftDigits, hparse, hadd]
  rfl

theorem shiftFrom_zero {n : ℕ} (hfits : offset + n ≤ usizeMax) {segment : Sql}
    (h : UsesOnly n segment) :
    shiftFrom offset 0 segment = some (shifted offset segment) := by
  induction segment using pieces_induction with
  | nil => rfl
  | char c chars hc ih =>
      rw [usesOnly_char_iff hc] at h
      rw [shiftFrom, if_neg hc, shifted_char hc, ih h]
      rfl
  | placeholder digits rest hne hdigits hrest ih =>
      rw [usesOnly_placeholder_iff hne hdigits hrest] at h
      have hstarts := startsWithDigit_of_digits hne hdigits rest
      rw [shiftFrom, if_pos ⟨rfl, hstarts⟩]
      dsimp only
      rw [takeWhile_append_of_not_digit hdigits hrest, shiftFrom_eq,
        List.drop_left, ih h.2, shiftDigits_eq h.1 hfits,
        shifted_placeholder hne hdigits hrest]
      rfl

theorem shiftPlaceholders_eq {n : ℕ} (hfits : offset + n ≤ usizeMax)
    {segment : Sql} (h : UsesOnly n segment) :
    shiftPlaceholders segment offset = some (shifted offset segment) := by
  rw [shiftPlaceholders]
  split
  · next hzero => rw [hzero, shifted_zero h]
  · exact shiftFrom_zero hfits h

/-- Every segment is shifted by the number of binds in front of it. -/
theorem shiftSegments_eq {segments : List Sql} {counts : List ℕ}
    (h : List.Forall₂ UsesOnly counts segments)
    (hfits : offset + counts.sum ≤ usizeMax) :
    shiftSegments offset (segments.zip counts) =
      some (segments.mapIdx fun i segment =>
        shifted (offset + (counts.take i).sum) segment) := by
  induction h generalizing offset with
  | nil => rfl
  | @cons count segment counts segments hsegment _ ih =>
      rw [List.sum_cons] at hfits
      have hadd : checkedAdd offset count = some (offset + count) :=
        if_pos (by omega)
      rw [List.zip_cons_cons, shiftSegments,
        shiftPlaceholders_eq (by omega) hsegment, hadd]
      simp only [Option.bind_eq_bind, Option.bind_some,
        ih (by omega : offset + count + counts.sum ≤ usizeMax),
        List.mapIdx_cons, List.take_zero, List.sum_nil, Nat.add_zero,
        List.take_succ_cons, List.sum_cons, Nat.add_assoc]
      rfl

end Shifted

/-! ## The meaning of a union -/

theorem pieces_append {a b : Sql} (hb : startsWithDigit b = false) :
    pieces (a ++ b) = pieces a ++ pieces b := by
  induction a using pieces_induction with
  | nil => rfl
  | char c chars h ih =>
      have h' : ¬(c = '$' ∧ startsWithDigit (chars ++ b) = true) := by
        cases chars with
        | nil => simp [hb]
        | cons d chars => exact h
      rw [List.cons_append, pieces_char h', pieces_char h, ih,
        List.cons_append]
  | placeholder digits rest hne hdigits hrest ih =>
      have hrest' : startsWithDigit (rest ++ b) = false := by
        cases rest with
        | nil => exact hb
        | cons d rest => exact hrest
      rw [List.cons_append, List.append_assoc,
        pieces_placeholder hne hdigits hrest',
        pieces_placeholder hne hdigits hrest, ih, List.cons_append]

/-- A text without dollars is read character by character. -/
theorem pieces_plain {a : Sql} (ha : '$' ∉ a) (b : Sql) :
    pieces (a ++ b) = a.map Piece.char ++ pieces b := by
  induction a with
  | nil => rfl
  | cons c a ih =>
      rw [List.mem_cons, not_or] at ha
      rw [List.cons_append, pieces_char (fun h => ha.1 h.1.symm), ih ha.2]
      rfl

section Meaning

variable {β : Type*}

theorem meaning_unionAll (binds : List β) (a b : Sql) :
    meaning binds (a ++ unionAll ++ b) =
      meaning binds a ++ unionAll.map Sum.inl ++ meaning binds b := by
  have hspace : startsWithDigit (unionAll ++ b) = false := rfl
  rw [meaning, List.append_assoc, pieces_append hspace,
    pieces_plain (by decide), List.map_append, List.map_append, List.map_map,
    List.append_assoc]
  rfl

/-- The segments of a union are read one by one. -/
theorem meaning_intercalate (binds : List β) (segments : List Sql) :
    meaning binds (unionAll.intercalate segments) =
      (unionAll.map Sum.inl).intercalate (segments.map (meaning binds)) := by
  induction segments with
  | nil => rfl
  | cons segment segments ih =>
      cases segments with
      | nil =>
          simp only [List.map_cons, List.map_nil, List.intercalate_singleton]
      | cons next segments =>
          rw [List.intercalate_cons_cons, meaning_unionAll, ih]
          simp only [List.map_cons, List.intercalate_cons_cons]

theorem resolve_placeholder {binds : List β} {digits : Sql} {j : ℕ}
    (h : numberOf digits = j + 1) :
    (Piece.placeholder digits).resolve binds = .inr binds[j]? := by
  rw [Piece.resolve, h]

/-- A shifted placeholder has its own value among the binds of all segments. -/
theorem resolve_shift {before own : List β} (after : List β) {piece : Piece}
    (h : piece.UpTo own.length) :
    (piece.shift before.length).resolve (before ++ own ++ after) =
      piece.resolve own := by
  cases piece with
  | char c => rfl
  | placeholder digits =>
      obtain ⟨hone, hle, -⟩ := h
      obtain ⟨j, hj⟩ := Nat.exists_eq_add_of_le' hone
      have hshifted : numberOf (Nat.toDigits 10
          (numberOf digits + before.length)) = before.length + j + 1 := by
        rw [numberOf, Nat.ofDigitChars_ten_toDigits, hj]
        omega
      have hlt : j < own.length := by omega
      rw [Piece.shift, resolve_placeholder hshifted, resolve_placeholder hj,
        List.append_assoc, List.getElem?_append_right (Nat.le_add_right _ _),
        Nat.add_sub_cancel_left, List.getElem?_append_left hlt]

theorem meaning_shifted {before own : List β} (after : List β) {segment : Sql}
    (h : UsesOnly own.length segment) :
    meaning (before ++ own ++ after) (shifted before.length segment) =
      meaning own segment := by
  rw [meaning, pieces_shifted, List.map_map]
  exact List.map_congr_left fun piece hpiece =>
    resolve_shift after (h piece hpiece)

/-- Every shifted segment means among all binds what it meant among its own. -/
theorem meaning_mapIdx {segments : List Sql} {binds : List (List β)}
    (before : List β)
    (h : List.Forall₂ UsesOnly (binds.map List.length) segments) :
    (segments.mapIdx fun i segment => shifted
        (before.length + ((binds.map List.length).take i).sum) segment).map
        (meaning (before ++ binds.flatten)) =
      List.zipWith meaning binds segments := by
  induction binds generalizing before segments with
  | nil =>
      cases h
      rfl
  | cons own binds ih =>
      cases h with
      | @cons _ segment _ segments hsegment hrest =>
          have hrest := ih (before ++ own) hrest
          rw [List.length_append] at hrest
          simp only [List.map_cons, List.mapIdx_cons, List.take_zero,
            List.sum_nil, Nat.add_zero, List.take_succ_cons, List.sum_cons,
            List.flatten_cons, ← List.append_assoc, ← Nat.add_assoc, hrest,
            List.zipWith_cons_cons, meaning_shifted _ hsegment]

end Meaning

/-- No segment without the keywords runs into the next separator. -/
theorem endsFirst_unionAll {segment : Sql}
    (h : ¬"UNION ALL".toList <:+: segment) : EndsFirst unionAll segment := by
  refine endsFirst_of_not_infix (by decide) ?_ h
  decide

theorem splitAtSep_unionAll {segments : List Sql} (hne : segments ≠ [])
    (h : ∀ segment ∈ segments, ¬"UNION ALL".toList <:+: segment) :
    splitAtSep unionAll (unionAll.intercalate segments) = segments :=
  splitAtSep_intercalate (by decide) hne fun segment hsegment =>
    endsFirst_unionAll (h segment hsegment)

section Union

variable {segments : List Sql} (hne : segments ≠ [])
  (hunion : ∀ segment ∈ segments, ¬"UNION ALL".toList <:+: segment)

/-- The segments with their placeholders numbered on from one to the next. -/
def renumbered (segments : List Sql) (counts : List ℕ) : List Sql :=
  segments.mapIdx fun i segment => shifted (counts.take i).sum segment

include hne hunion in
theorem renumberUnionSegments_of_length {counts : List ℕ}
    (hlen : counts.length ≠ segments.length) :
    renumberUnionSegments (unionAll.intercalate segments) counts =
      some (unionAll.intercalate segments) := by
  simp only [renumberUnionSegments, splitAtSep_unionAll hne hunion]
  exact if_pos fun h => hlen h.symm

include hne hunion in
theorem renumberUnionSegments_eq {counts : List ℕ}
    (huses : List.Forall₂ UsesOnly counts segments)
    (hfits : counts.sum ≤ usizeMax) :
    renumberUnionSegments (unionAll.intercalate segments) counts =
      some (unionAll.intercalate (renumbered segments counts)) := by
  have hlen := huses.length_eq
  have hshift : shiftSegments 0 (segments.zip counts) =
      some (renumbered segments counts) := by
    rw [shiftSegments_eq huses (by omega)]
    simp only [Nat.zero_add, renumbered]
  simp only [renumberUnionSegments, splitAtSep_unionAll hne hunion]
  rw [if_neg (by simp [hlen]), hshift]
  rfl

/-- Among all binds the renumbered union means what its segments mean, each
among its own. -/
theorem meaning_renumbered {β : Type*} {binds : List (List β)}
    (huses : List.Forall₂ UsesOnly (binds.map List.length) segments) :
    meaning binds.flatten
        (unionAll.intercalate (renumbered segments (binds.map List.length))) =
      (unionAll.map Sum.inl).intercalate
        (List.zipWith meaning binds segments) := by
  have hmeaning := meaning_mapIdx [] huses
  simp only [List.length_nil, Nat.zero_add, List.nil_append] at hmeaning
  rw [meaning_intercalate, renumbered, hmeaning]

end Union

/-- Each placeholder of a union is renumbered by the number of binds in front
of its segment, so that it keeps its value when the binds of all segments, which
are one vector, are put together. -/
theorem renumberUnionSegments_exact {segments : List Sql}
    (hne : segments ≠ [])
    (hunion : ∀ segment ∈ segments, ¬"UNION ALL".toList <:+: segment)
    (counts : List ℕ) :
    (counts.length ≠ segments.length →
      renumberUnionSegments (unionAll.intercalate segments) counts =
        some (unionAll.intercalate segments)) ∧
    (List.Forall₂ UsesOnly counts segments → counts.sum ≤ usizeMax →
      renumberUnionSegments (unionAll.intercalate segments) counts =
        some (unionAll.intercalate (segments.mapIdx fun i segment =>
          shifted (counts.take i).sum segment)) ∧
      ∀ (β : Type) (binds : List (List β)), binds.map List.length = counts →
        meaning binds.flatten (unionAll.intercalate
            (segments.mapIdx fun i segment =>
              shifted (counts.take i).sum segment)) =
          (unionAll.map Sum.inl).intercalate
            (List.zipWith meaning binds segments)) := by
  refine ⟨renumberUnionSegments_of_length hne hunion, fun huses hfits =>
    ⟨renumberUnionSegments_eq hne hunion huses hfits, ?_⟩⟩
  rintro β binds rfl
  exact meaning_renumbered huses

theorem renumberUnionSegments_exact_two :
    renumberUnionSegments "a = $1 UNION ALL $1, $10 = $ or $2$3".toList
        [1, 10] =
      some "a = $1 UNION ALL $2, $11 = $ or $3$4".toList :=
  ((@renumberUnionSegments_exact
    ["a = $1".toList, "$1, $10 = $ or $2$3".toList] (by decide) (by decide)
    [1, 10]).2 (.cons (by decide) (.cons (by decide) .nil))
    (by decide)).1.trans (by decide)

end Tempr.DbPostgres
