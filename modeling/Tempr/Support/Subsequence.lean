import Mathlib.Data.List.Forall2

/-!
# Greedy subsequences

A list occurs in another one as a subsequence, up to a relation of the elements,
just when it does so with each element matched as early as possible.
-/

namespace Tempr.Support.Subsequence

open List

variable {α β : Type*} {R : α → β → Prop} {q : α} {query : List α}

theorem sublistForall₂_of_cons {l : List β}
    (h : SublistForall₂ R (q :: query) l) : SublistForall₂ R query l := by
  induction l with
  | nil => cases h
  | cons c l ih =>
    rcases h with _ | ⟨-, h⟩ | h
    · exact h.cons_right
    · exact (ih h).cons_right

/-- The first element that matches may be taken. -/
theorem sublistForall₂_cons_iff_of_match {c : β} (hc : R q c) {l : List β} :
    SublistForall₂ R (q :: query) (c :: l) ↔ SublistForall₂ R query l := by
  refine ⟨fun h => ?_, fun h => h.cons hc⟩
  rcases h with _ | ⟨-, h⟩ | h
  · exact h
  · exact sublistForall₂_of_cons h

/-- Elements that do not match are skipped. -/
theorem sublistForall₂_append_iff_of_skip {skipped : List β}
    (hskipped : ∀ c ∈ skipped, ¬ R q c) {l : List β} :
    SublistForall₂ R (q :: query) (skipped ++ l) ↔
      SublistForall₂ R (q :: query) l := by
  induction skipped with
  | nil => rfl
  | cons c skipped ih =>
    obtain ⟨hc, hrest⟩ := List.forall_mem_cons.mp hskipped
    rw [List.cons_append, ← ih hrest]
    refine ⟨fun h => ?_, fun h => h.cons_right⟩
    rcases h with _ | ⟨hmatch, -⟩ | h
    · exact absurd hmatch hc
    · exact h

end Tempr.Support.Subsequence
