import Mathlib.Data.List.Induction
import Mathlib.Data.List.Sort

/-!
# The best of a list

A bounded heap keeps the best elements that it is offered: a full heap gives up
its worst element for a better one. Of elements with different keys it keeps the
first ones of the sorted list, in whatever order they are offered.
-/

namespace Tempr.Support.TopN

variable {α β : Type*} [LinearOrder β]

/-- `a` is at least as good as `b`. -/
def AtLeast (key : α → β) (a b : α) : Prop :=
  key b ≤ key a

instance (key : α → β) : DecidableRel (AtLeast key) :=
  fun a b => inferInstanceAs (Decidable (key b ≤ key a))

instance (key : α → β) : Std.Total (AtLeast key) :=
  ⟨fun a b => le_total (key b) (key a)⟩

instance (key : α → β) : IsTrans α (AtLeast key) :=
  ⟨fun _ _ _ hab hbc => le_trans hbc hab⟩

/-- The list with the best elements first. -/
def sorted (key : α → β) (l : List α) : List α :=
  l.insertionSort (AtLeast key)

/-- Push an element onto a heap. The elements of the heap are listed with the
best first. -/
def push (key : α → β) (x : α) (heap : List α) : List α :=
  heap.orderedInsert (AtLeast key) x

/-- Offer an element to a heap of at most `n` elements. -/
def offer (key : α → β) (n : ℕ) (heap : List α) (x : α) : List α :=
  if heap.length < n then push key x heap
  else
    match heap.getLast? with
    | some worst => if key worst < key x then push key x heap.dropLast else heap
    | none => heap

/-- The heap after all elements of a list have been offered. -/
def keep (key : α → β) (n : ℕ) (l : List α) : List α :=
  l.foldl (offer key n) []

variable {key : α → β}

/-! ## Sorted lists -/

theorem sorted_cons (x : α) (l : List α) :
    sorted key (x :: l) = push key x (sorted key l) :=
  rfl

theorem sorted_perm (l : List α) : (sorted key l).Perm l :=
  List.perm_insertionSort _ l

theorem pairwise_sorted (l : List α) :
    (sorted key l).Pairwise (AtLeast key) :=
  List.pairwise_insertionSort _ l

/-- There is one way to sort elements with different keys. -/
theorem eq_of_perm {l l' : List α} (h : l.Perm l')
    (hkeys : (l.map key).Nodup) (hl : l.Pairwise (AtLeast key))
    (hl' : l'.Pairwise (AtLeast key)) : l = l' := by
  apply List.Perm.eq_of_pairwise _ hl hl' h
  intro a b ha hb hab hba
  exact List.inj_on_of_nodup_map hkeys ha (h.mem_iff.2 hb)
    (le_antisymm hba hab)

theorem sorted_eq_of_perm {l l' : List α} (h : l.Perm l')
    (hkeys : (l.map key).Nodup) : sorted key l = sorted key l' := by
  apply eq_of_perm _ _ (pairwise_sorted l) (pairwise_sorted l')
  · exact (sorted_perm l).trans (h.trans (sorted_perm l').symm)
  · exact ((sorted_perm l).map key).nodup_iff.2 hkeys

/-! ## One offer -/

theorem push_cons (x y : α) (s : List α) :
    push key x (y :: s) =
      if key y ≤ key x then x :: y :: s else y :: push key x s :=
  rfl

theorem length_push (x : α) (s : List α) :
    (push key x s).length = s.length + 1 :=
  List.orderedInsert_length _ s x

/-- An element worse than the first `n` leaves them. -/
theorem take_push_of_worse {x : α} {s : List α} {n : ℕ} (hn : n ≤ s.length)
    (hworse : ∀ y ∈ s.take n, key x < key y) :
    (push key x s).take n = s.take n := by
  induction n generalizing s with
  | zero => rfl
  | succ n ih =>
      cases s with
      | nil => exact absurd hn (by simp)
      | cons y s =>
          have hy : key x < key y := hworse y (by simp)
          rw [push_cons, if_neg (not_le.2 hy), List.take_succ_cons,
            List.take_succ_cons, ih (Nat.le_of_succ_le_succ hn)]
          intro z hz
          exact hworse z (by simp [hz])

/-- An element better than the one at `n` comes among the first `n + 1`. -/
theorem take_push_of_better {x y : α} {s : List α} {n : ℕ}
    (hy : s[n]? = some y) (hbetter : key y ≤ key x) :
    (push key x s).take (n + 1) = push key x (s.take n) := by
  induction s generalizing n with
  | nil => simp at hy
  | cons z s ih =>
      rw [push_cons]
      cases n with
      | zero =>
          obtain rfl : z = y := by simpa using hy
          rw [if_pos hbetter]
          rfl
      | succ n =>
          rw [List.take_succ_cons, push_cons]
          split
          · simp
          · rw [List.take_succ_cons, ih (by simpa using hy)]

/-- What a heap holds of a sorted list, it holds after an offer of the list with
the element. -/
theorem offer_take {x : α} {s : List α} (n : ℕ)
    (hs : s.Pairwise (AtLeast key)) (hx : ∀ y ∈ s, key y ≠ key x) :
    offer key n (s.take n) x = (push key x s).take n := by
  rw [offer]
  by_cases hlen : s.length < n
  · rw [List.take_of_length_le hlen.le, if_pos hlen, List.take_of_length_le]
    rw [length_push]
    exact hlen
  · rw [not_lt] at hlen
    rw [if_neg (by simp [hlen])]
    cases n with
    | zero => rfl
    | succ n =>
        -- the worst element of the full heap is at `n`
        have hworst : s[n]? = some s[n] := List.getElem?_eq_getElem hlen
        have htake : s.take (n + 1) = s.take n ++ [s[n]] :=
          List.take_succ_eq_append_getElem hlen
        rw [htake, List.getLast?_append, List.getLast?_singleton,
          Option.some_or, List.dropLast_concat]
        simp only
        split
        · next hlt => rw [take_push_of_better hworst hlt.le]
        · next hle =>
            rw [take_push_of_worse hlen, htake]
            intro y hy
            rw [not_lt] at hle
            have hxn : key x < key s[n] :=
              lt_of_le_of_ne hle (hx _ (List.getElem_mem hlen)).symm
            rw [htake] at hy
            rcases List.mem_append.1 hy with hy | hy
            · have hpair := hs.sublist (List.take_sublist (n + 1) s)
              rw [htake, List.pairwise_append] at hpair
              exact lt_of_lt_of_le hxn (hpair.2.2 y hy _ (by simp))
            · rw [List.mem_singleton.1 hy]
              exact hxn

/-! ## All offers -/

/-- The heap holds the first ones of the sorted list. -/
theorem keep_eq (n : ℕ) {l : List α} (hkeys : (l.map key).Nodup) :
    keep key n l = (sorted key l).take n := by
  induction l using List.reverseRecOn with
  | nil => simp [keep, sorted]
  | append_singleton l x ih =>
      rw [List.map_append, List.nodup_append] at hkeys
      have hx : ∀ y ∈ sorted key l, key y ≠ key x := by
        intro y hy
        exact hkeys.2.2 _ (List.mem_map_of_mem ((sorted_perm l).mem_iff.1 hy))
          _ (by simp)
      have hsorted : sorted key (l ++ [x]) = push key x (sorted key l) := by
        rw [← sorted_cons]
        apply sorted_eq_of_perm (List.perm_append_singleton x l)
        rw [List.map_append, List.nodup_append]
        exact hkeys
      rw [keep, List.foldl_append, ← keep, ih hkeys.1, List.foldl_cons,
        List.foldl_nil, offer_take n (pairwise_sorted l) hx, hsorted]

theorem sorted_keep_eq (n : ℕ) {l : List α} (hkeys : (l.map key).Nodup) :
    sorted key (keep key n l) = (sorted key l).take n := by
  rw [keep_eq n hkeys]
  exact (pairwise_sorted l).take.insertionSort_eq

/-- The order of the offers does not matter, nor does the order in which the
heap is emptied. -/
theorem sorted_keep_eq_of_perm (n : ℕ) {l l' : List α} (h : l.Perm l')
    (hkeys : (l.map key).Nodup) :
    sorted key (keep key n l) = sorted key (keep key n l') := by
  rw [sorted_keep_eq n hkeys, sorted_keep_eq n ((h.map key).nodup_iff.1 hkeys),
    sorted_eq_of_perm h hkeys]

end Tempr.Support.TopN
