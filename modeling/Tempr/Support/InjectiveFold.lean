import Mathlib.Data.List.Basic

/-!
# Folds that lose nothing

A fold whose step is injective in the state and in the element tells apart two
lists that differ in one place, whatever follows that place.
-/

namespace Tempr.Support.InjectiveFold

variable {S B : Type*} {step : S → B → S}

theorem foldl_injective (hstate : ∀ b, Function.Injective fun s => step s b)
    (l : List B) : Function.Injective fun s => l.foldl step s := by
  induction l with
  | nil => exact fun s t h => h
  | cons b l ih => exact fun s t h => hstate b (ih h)

/-- A list with one element changed is folded to another state. -/
theorem foldl_set_ne (hstate : ∀ b, Function.Injective fun s => step s b)
    (hstep : ∀ s, Function.Injective (step s)) {l : List B} {i : ℕ}
    (hi : i < l.length) {b : B} (hb : b ≠ l[i]) (s : S) :
    (l.set i b).foldl step s ≠ l.foldl step s := by
  intro h
  apply hb
  rw [List.set_eq_take_append_cons_drop, if_pos hi] at h
  have hcut : l = l.take i ++ l[i] :: l.drop (i + 1) := by
    rw [← List.drop_eq_getElem_cons hi, List.take_append_drop]
  conv_rhs at h => rw [hcut]
  simp only [List.foldl_append, List.foldl_cons] at h
  exact hstep _ (foldl_injective hstate _ h)

end Tempr.Support.InjectiveFold
