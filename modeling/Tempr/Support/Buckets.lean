import Mathlib.Data.List.Nodup
import Mathlib.Data.List.Perm.Basic
import Mathlib.Data.List.Range
import Mathlib.Data.Multiset.Bind

/-!
# Buckets

The elements of a list go into numbered buckets, and the buckets are laid one
behind the other.
-/

namespace Tempr.Support.Buckets

variable {α β γ : Type*}

/-- The list of what `f` makes of the elements has the keys of a part of them. -/
theorem map_filterMap_sublist {f : α → Option β} {g : β → γ} {key : α → γ}
    (h : ∀ a b, f a = some b → g b = key a) (l : List α) :
    ((l.filterMap f).map g).Sublist (l.map key) := by
  induction l with
  | nil => exact .slnil
  | cons a l ih =>
      cases hf : f a with
      | none =>
          rw [List.filterMap_cons_none hf]
          exact ih.cons _
      | some b =>
          rw [List.filterMap_cons_some hf, List.map_cons, List.map_cons,
            h a b hf]
          exact ih.cons_cons _

theorem flatMap_comm_perm (l : List α) (k : List β) (f : α → β → List γ) :
    (l.flatMap fun a => k.flatMap (f a)).Perm
      (k.flatMap fun b => l.flatMap fun a => f a b) := by
  rw [← Multiset.coe_eq_coe]
  simpa only [Multiset.coe_bind] using
    Multiset.bind_bind (l : Multiset α) (k : Multiset β)
      (f := fun a b => (f a b : Multiset γ))

/-- Of the numbers below `n`, only `k` gives anything. -/
theorem flatMap_range_eq {f : ℕ → List β} {n k : ℕ} (hk : k < n)
    (h : ∀ i, i ≠ k → f i = []) : (List.range n).flatMap f = f k := by
  obtain ⟨before, after, hrange⟩ :=
    List.append_of_mem (List.mem_range.2 hk)
  have hnodup := List.nodup_range (n := n)
  rw [hrange, List.nodup_append, List.nodup_cons] at hnodup
  obtain ⟨-, ⟨hafter, -⟩, hbefore⟩ := hnodup
  have hnone : ∀ i ∈ before, f i = [] := fun i hi =>
    h i (hbefore i hi k List.mem_cons_self)
  have hnone' : ∀ i ∈ after, f i = [] := fun i hi =>
    h i fun heq => hafter (heq ▸ hi)
  rw [hrange, List.flatMap_append, List.flatMap_cons,
    List.flatMap_eq_nil_iff.2 hnone, List.flatMap_eq_nil_iff.2 hnone',
    List.nil_append, List.append_nil]

/-- Bucket by bucket there are the elements that have a bucket. -/
theorem flatMap_range_filterMap_perm (place : α → Option ℕ)
    (f : ℕ → α → Option β) {n : ℕ} (hplace : ∀ a k, place a = some k → k < n)
    (hf : ∀ k a, place a ≠ some k → f k a = none) (l : List α) :
    ((List.range n).flatMap fun k => l.filterMap (f k)).Perm
      (l.filterMap fun a => (place a).bind (f · a)) := by
  simp only [List.filterMap_eq_flatMap_toList]
  refine (flatMap_comm_perm _ _ _).trans (List.Perm.of_eq ?_)
  apply List.flatMap_congr
  intro a _
  cases ha : place a with
  | none =>
      rw [List.flatMap_eq_nil_iff.2]
      · rfl
      · intro k _
        rw [hf k a (by simp [ha])]
        rfl
  | some k =>
      rw [flatMap_range_eq (hplace a k ha)]
      · rfl
      · intro i hi
        rw [hf i a (by simpa [ha] using Ne.symm hi)]
        rfl

end Tempr.Support.Buckets
