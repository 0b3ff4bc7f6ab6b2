import Mathlib.Data.List.Basic
import Mathlib.Data.List.Count
import Mathlib.Data.List.Pairwise
import Mathlib.Data.List.TakeWhile
import Mathlib.Order.Lattice

/-!
# Scans of sorted lists

A search of a sorted list skips what lies below a bound and takes what belongs
to a block. Where the block is convex and starts at the bound, the search finds
the whole block; a cap keeps those elements of it that few others precede.
-/

namespace Tempr.Support.SortedScan

variable {α : Type*} {below inside : α → Bool} {l : List α}

theorem takeWhile_eq_filter
    (hblock : l.Pairwise fun a b => inside b → inside a) :
    l.takeWhile inside = l.filter inside := by
  induction l with
  | nil => rfl
  | cons a l ih =>
    obtain ⟨ha, hl⟩ := List.pairwise_cons.mp hblock
    by_cases hin : inside a
    · rw [List.takeWhile_cons_of_pos hin, List.filter_cons_of_pos hin, ih hl]
    · rw [List.takeWhile_cons_of_neg hin, List.filter_cons_of_neg hin]
      symm
      rw [List.filter_eq_nil_iff]
      exact fun b hb hbin => hin (ha b hb hbin)

/-- A scan finds the elements of the block: what is below comes first, and
between two elements that are not below, the second one in the block, both are
in it. -/
theorem scan_eq_filter (hapart : ∀ a ∈ l, inside a → ¬ below a)
    (hbelow : l.Pairwise fun a b => below b → below a)
    (hblock : l.Pairwise fun a b => ¬ below a → inside b → inside a) :
    (l.dropWhile below).takeWhile inside = l.filter inside := by
  induction l with
  | nil => rfl
  | cons a l ih =>
    obtain ⟨ha, hl⟩ := List.pairwise_cons.mp hbelow
    by_cases hskip : below a
    · have hout : ¬ inside a := fun hin => hapart a (by simp) hin hskip
      rw [List.dropWhile_cons_of_pos hskip, List.filter_cons_of_neg hout]
      exact ih (fun b hb => hapart b (by simp [hb])) hl
        (List.pairwise_cons.mp hblock).2
    · rw [List.dropWhile_cons_of_neg hskip]
      refine takeWhile_eq_filter (hblock.imp_of_mem fun {x y} hx _ hxy => ?_)
      refine hxy ?_
      rcases List.mem_cons.mp hx with rfl | hx
      · exact hskip
      · exact fun h => hskip (ha x hx h)

/-- Of a strictly sorted list, the first `n` elements are those that fewer than
`n` others precede. -/
theorem mem_take_iff {r : α → α → Prop} [DecidableRel r]
    (hasymm : ∀ a b, r a b → ¬ r b a) (hsorted : l.Pairwise r) {x : α}
    (hx : x ∈ l) (n : ℕ) :
    x ∈ l.take n ↔ l.countP (fun y => r y x) < n := by
  induction l generalizing n with
  | nil => simp at hx
  | cons a l ih =>
    obtain ⟨ha, hl⟩ := List.pairwise_cons.mp hsorted
    cases n with
    | zero => simp
    | succ n =>
      rw [List.take_succ_cons, List.mem_cons, List.countP_cons]
      by_cases hxa : x = a
      · subst hxa
        have hnone : l.countP (fun y => r y x) = 0 := by
          rw [List.countP_eq_zero]
          intro y hy
          simpa using hasymm x y (ha y hy)
        have hself : ¬ r x x := fun h => hasymm x x h h
        simp [hnone, hself]
      · have hxl : x ∈ l := (List.mem_cons.mp hx).resolve_left hxa
        have hax : r a x := ha x hxl
        simp only [hxa, false_or, ih hl hxl, hax, decide_true, if_true]
        omega

/-! ## Partition points -/

/-- What comes before `start` is below, and what follows is not: the answer of a
binary search. -/
def IsPartitionPoint (below : α → Bool) (l : List α) (start : ℕ) : Prop :=
  (∀ a ∈ l.take start, below a) ∧ ∀ a ∈ l.drop start, ¬ below a

theorem IsPartitionPoint.drop_eq {start : ℕ}
    (h : IsPartitionPoint below l start) : l.drop start = l.dropWhile below := by
  have hskip : (l.take start).dropWhile below = [] :=
    List.dropWhile_eq_nil_iff.mpr h.1
  have hstop : (l.drop start).dropWhile below = l.drop start := by
    rw [List.dropWhile_eq_self_iff]
    exact fun hpos => h.2 _ (List.getElem_mem hpos)
  conv_rhs => rw [← List.take_append_drop start l]
  rw [List.dropWhile_append, hskip, hstop]
  rfl

/-- A list in which what is below comes first has a partition point. -/
theorem exists_isPartitionPoint
    (hbelow : l.Pairwise fun a b => below b → below a) :
    ∃ start, IsPartitionPoint below l start := by
  induction l with
  | nil => exact ⟨0, by simp, by simp⟩
  | cons a l ih =>
    obtain ⟨ha, hl⟩ := List.pairwise_cons.mp hbelow
    by_cases hskip : below a
    · obtain ⟨start, htake, hdrop⟩ := ih hl
      refine ⟨start + 1, ?_, hdrop⟩
      rw [List.take_succ_cons]
      exact List.forall_mem_cons.mpr ⟨hskip, htake⟩
    · refine ⟨0, by simp, ?_⟩
      exact List.forall_mem_cons.mpr ⟨hskip, fun b hb hb' => hskip (ha b hb hb')⟩

/-! ## Prefixes in the lexicographic order -/

section Prefix

variable {β : Type*} [LinearOrder β]

theorem not_lt_of_prefix {p x : List β} (hp : p <+: x) : ¬ x < p := by
  obtain ⟨t, rfl⟩ := hp
  induction p with
  | nil => exact List.not_lt_nil _
  | cons a p ih =>
    rw [List.cons_append, List.cons_lt_cons_iff]
    rintro (h | ⟨-, h⟩)
    · exact lt_irrefl a h
    · exact ih h

/-- What lies between a prefix and a list that begins with it begins with it
too. -/
theorem prefix_of_between {p x y : List β} (hpx : ¬ x < p)
    (hxy : x < y ∨ x = y) (hpy : p <+: y) : p <+: x := by
  rcases hxy with hxy | rfl
  swap
  · exact hpy
  induction p generalizing x y with
  | nil => exact List.nil_prefix
  | cons a p ih =>
    obtain ⟨y, rfl, hy⟩ : ∃ t, y = a :: t ∧ p <+: t := by
      obtain ⟨t, rfl⟩ := hpy
      exact ⟨p ++ t, rfl, List.prefix_append p t⟩
    cases x with
    | nil => exact absurd (List.nil_lt_cons a p) hpx
    | cons b x =>
      rw [List.cons_lt_cons_iff] at hxy hpx
      rcases hxy with hba | ⟨rfl, hxy⟩
      · exact absurd (Or.inl hba) hpx
      · have hrest : ¬ x < p := fun h => hpx (Or.inr ⟨rfl, h⟩)
        exact List.cons_prefix_cons.mpr ⟨rfl, ih hrest hy hxy⟩

end Prefix

end Tempr.Support.SortedScan
