import Mathlib.Data.List.Infix
import Mathlib.Tactic.Common

/-!
# Lists cut at a separator

A list is cut at every occurrence of a separator, from left to right and
without overlaps.  Parts that are put together with the separator between them
are found again when it does not begin before the end of any part.
-/

namespace Tempr.Support

variable {α : Type*} [DecidableEq α]

/-- Cut a list at every occurrence of `sep`.  What has been read since the last
one is `part`, and `skip` elements of it are still to be passed over. -/
def splitFrom (sep : List α) : List α → ℕ → List α → List (List α)
  | part, _, [] => [part]
  | part, skip + 1, _ :: xs => splitFrom sep part skip xs
  | part, 0, x :: xs =>
      if sep.isPrefixOf (x :: xs) then
        part :: splitFrom sep [] (sep.length - 1) xs
      else splitFrom sep (part ++ [x]) 0 xs

/-- The parts of a list between the occurrences of a separator. -/
def splitAtSep (sep xs : List α) : List (List α) := splitFrom sep [] 0 xs

/-- In `part` with `sep` behind it, `sep` begins at the end of `part` only. -/
def EndsFirst (sep part : List α) : Prop :=
  ∀ k < part.length, ¬sep <+: part.drop k ++ sep

variable {sep part : List α}

omit [DecidableEq α] in
theorem EndsFirst.tail {x : α} (h : EndsFirst sep (x :: part)) :
    EndsFirst sep part := fun k hk => h (k + 1) (Nat.succ_lt_succ hk)

omit [DecidableEq α] in
theorem EndsFirst.not_begins {x : α} (h : EndsFirst sep (x :: part))
    (rest : List α) : ¬sep <+: x :: part ++ sep ++ rest := by
  intro hbegins
  refine h 0 (Nat.succ_pos _) ?_
  refine List.prefix_of_prefix_length_le hbegins (List.prefix_append _ rest) ?_
  rw [List.length_append]
  exact Nat.le_add_left _ _

theorem splitFrom_skip (part passed xs : List α) :
    splitFrom sep part passed.length (passed ++ xs) =
      splitFrom sep part 0 xs := by
  induction passed with
  | nil => rfl
  | cons x passed ih => exact ih

/-- Up to the first separator there is one part. -/
theorem splitFrom_part (hsep : sep ≠ []) (read : List α)
    (h : EndsFirst sep part) (rest : List α) :
    splitFrom sep read 0 (part ++ sep ++ rest) =
      (read ++ part) :: splitFrom sep [] 0 rest := by
  induction part generalizing read with
  | nil =>
      obtain ⟨x, sep, rfl⟩ := List.exists_cons_of_ne_nil hsep
      have hbegins : (x :: sep).isPrefixOf (x :: (sep ++ rest)) = true :=
        List.isPrefixOf_iff_prefix.mpr (List.prefix_append (x :: sep) rest)
      rw [List.nil_append, List.cons_append, splitFrom, if_pos hbegins,
        List.length_cons, Nat.add_sub_cancel, splitFrom_skip, List.append_nil]
  | cons x part ih =>
      have hno : ¬sep.isPrefixOf (x :: (part ++ sep ++ rest)) = true := by
        rw [ List.isPrefixOf_iff_prefix]
        exact h.not_begins rest
      rw [List.cons_append, List.cons_append, splitFrom, if_neg hno,
        ih (read ++ [x]) h.tail, List.append_assoc, List.singleton_append]

theorem splitFrom_last (read : List α) (h : EndsFirst sep part) :
    splitFrom sep read 0 part = [read ++ part] := by
  induction part generalizing read with
  | nil => rw [splitFrom, List.append_nil]
  | cons x part ih =>
      have hno : ¬sep.isPrefixOf (x :: part) = true := by
        rw [ List.isPrefixOf_iff_prefix]
        intro hbegins
        exact h 0 (Nat.succ_pos _) (hbegins.trans (List.prefix_append _ sep))
      rw [splitFrom, if_neg hno, ih (read ++ [x]) h.tail, List.append_assoc,
        List.singleton_append]

/-- Parts in which the separator does not begin are found again. -/
theorem splitAtSep_intercalate (hsep : sep ≠ []) {parts : List (List α)}
    (hne : parts ≠ []) (h : ∀ part ∈ parts, EndsFirst sep part) :
    splitAtSep sep (sep.intercalate parts) = parts := by
  rw [splitAtSep]
  induction parts with
  | nil => exact absurd rfl hne
  | cons part parts ih =>
      rw [List.forall_mem_cons] at h
      cases parts with
      | nil =>
          rw [List.intercalate_singleton, splitFrom_last [] h.1,
            List.nil_append]
      | cons next parts =>
          rw [List.intercalate_cons_cons, splitFrom_part hsep [] h.1,
            List.nil_append, ih (List.cons_ne_nil _ _) h.2]

omit [DecidableEq α] in
/-- When every overlap of a separator with itself leaves `core` in front, the
separator does not begin in a part without `core`. -/
theorem endsFirst_of_not_infix {core : List α} (hcore : core <:+: sep)
    (hoverlap : ∀ j < sep.length, sep.drop j <+: sep → j = 0 ∨
      core <:+: sep.take j)
    (h : ¬core <:+: part) : EndsFirst sep part := by
  intro k hk hbegins
  have hsuffix : part.drop k <:+: part := (List.drop_suffix k part).isInfix
  by_cases hlen : sep.length ≤ (part.drop k).length
  · have hsep : sep <+: part.drop k :=
      List.prefix_of_prefix_length_le hbegins (List.prefix_append _ sep) hlen
    exact h (hcore.trans (hsep.isInfix.trans hsuffix))
  · have hshort : part.drop k <+: sep :=
      List.prefix_of_prefix_length_le (List.prefix_append _ sep) hbegins
        (not_le.mp hlen).le
    obtain ⟨m, hm⟩ := hshort
    have htake : sep.take (part.drop k).length = part.drop k := by
      rw [← hm, List.take_left]
    have hdrop : sep.drop (part.drop k).length = m := by
      conv_lhs => rw [← hm]
      rw [List.drop_left]
    -- the rest of the separator begins it again
    have hagain : m <+: sep := by
      have hwhole : part.drop k ++ m <+: part.drop k ++ sep := by
        rw [hm]
        exact hbegins
      exact (List.prefix_append_right_inj _).mp hwhole
    rcases hoverlap _ (not_le.mp hlen) (hdrop ▸ hagain) with hzero | hfront
    · rw [List.length_drop] at hzero
      omega
    · rw [htake] at hfront
      exact h (hfront.trans hsuffix)

end Tempr.Support
