import Mathlib.Data.Finset.Card
import Mathlib.Data.Finset.Max

/-!
# Cyclic order

The elements of a finite set in the order of a relation, with the first one
again after the last one. A sequence that always goes on to the next element
comes to every element of the set, in at most as many steps as the set has
elements.
-/

namespace Tempr.Support.Cyclic

variable {α : Type*} (r : α → α → Prop)

/-- `b` follows `a` in `S`: it is the first element after `a`, or the first of
all elements when there is none after `a`. -/
def Follows (S : Finset α) (a b : α) : Prop :=
  b ∈ S ∧
    ((r a b ∧ ∀ s ∈ S, r a s → ¬ r s b) ∨
      ((∀ s ∈ S, ¬ r a s) ∧ ∀ s ∈ S, ¬ r s b))

/-- A sequence that starts in `S` and always goes on to the next element. -/
structure Tour (S : Finset α) (x : ℕ → α) : Prop where
  start_mem : x 0 ∈ S
  follows : ∀ n, Follows r S (x n) (x (n + 1))

variable {r} {S : Finset α} {x : ℕ → α}

theorem Tour.mem (hx : Tour r S x) : ∀ n, x n ∈ S
  | 0 => hx.start_mem
  | n + 1 => (hx.follows n).1

variable [IsStrictTotalOrder α r]

theorem eq_or_rel {a b : α} (hba : ¬ r b a) : a = b ∨ r a b := by
  rcases trichotomous_of r a b with h | h | h
  · exact Or.inr h
  · exact Or.inl h
  · exact absurd h hba

/-- Of two elements of a strict total order neither of which precedes the
other, there is only one. -/
theorem eq_of_not_rel {a b : α} (hab : ¬ r a b) (hba : ¬ r b a) : a = b :=
  (eq_or_rel hba).resolve_right hab

theorem Follows.unique {a b c : α} (hb : Follows r S a b)
    (hc : Follows r S a c) : b = c := by
  obtain ⟨hbS, ⟨hab, hb⟩ | ⟨hnone, hb⟩⟩ := hb
  · obtain ⟨hcS, ⟨hac, hc⟩ | ⟨hnone, -⟩⟩ := hc
    · exact eq_of_not_rel (hc b hbS hab) (hb c hcS hac)
    · exact absurd hab (hnone b hbS)
  · obtain ⟨hcS, ⟨hac, -⟩ | ⟨-, hc⟩⟩ := hc
    · exact absurd hac (hnone c hcS)
    · exact eq_of_not_rel (hc b hbS) (hb c hcS)

/-! ## What lies ahead -/

section Ahead

variable [DecidableRel r]

/-- The elements after `a`. -/
def ahead (r : α → α → Prop) [DecidableRel r] (S : Finset α) (a : α) :
    Finset α :=
  S.filter fun s => r a s

theorem card_ahead_lt {a b : α} (hb : b ∈ S) (hab : r a b) :
    (ahead r S b).card < (ahead r S a).card := by
  have hsubset : ahead r S b ⊆ ahead r S a := by
    intro s hs
    have h := Finset.mem_filter.mp hs
    exact Finset.mem_filter.mpr ⟨h.1, trans_of r hab h.2⟩
  apply Finset.card_lt_card
  apply (Finset.ssubset_iff_of_subset hsubset).mpr
  refine ⟨b, Finset.mem_filter.mpr ⟨hb, hab⟩, ?_⟩
  intro h
  exact irrefl_of r b (Finset.mem_filter.mp h).2

omit [DecidableRel r] in
theorem exists_last (hS : S.Nonempty) : ∃ last ∈ S, ∀ t ∈ S, ¬ r last t := by
  classical
  obtain ⟨last, hlast, hmin⟩ :=
    S.exists_min_image (fun s => (ahead r S s).card) hS
  refine ⟨last, hlast, fun t ht hlt => ?_⟩
  exact absurd (card_ahead_lt ht hlt) (Nat.not_lt.mpr (hmin t ht))

/-- What lies ahead is reached: no step goes past it, and each step leaves
fewer elements ahead. -/
theorem Tour.reaches_ahead (hx : Tour r S x) {s : α} (hs : s ∈ S) (n : ℕ)
    (hahead : x n = s ∨ r (x n) s) : ∃ m, n ≤ m ∧ x m = s := by
  induction hk : (ahead r S (x n)).card using Nat.strong_induction_on
    generalizing n with
  | _ k ih =>
    rcases hahead with heq | hns
    · exact ⟨n, le_rfl, heq⟩
    have hstep : r (x n) (x (n + 1)) ∧
        ∀ t ∈ S, r (x n) t → ¬ r t (x (n + 1)) := by
      rcases (hx.follows n).2 with h | ⟨hnone, -⟩
      · exact h
      · exact absurd hns (hnone s hs)
    have hnext : x (n + 1) = s ∨ r (x (n + 1)) s :=
      eq_or_rel (hstep.2 s hs hns)
    have hfewer := card_ahead_lt (hx.mem (n + 1)) hstep.1
    obtain ⟨m, hm, rfl⟩ := ih _ (hk ▸ hfewer) (n + 1) hnext rfl
    exact ⟨m, by omega, rfl⟩

end Ahead

/-! ## A whole turn -/

/-- After the last element comes the first one, and all others lie ahead of
that one. -/
theorem Tour.reaches (hx : Tour r S x) {s : α} (hs : s ∈ S) :
    ∃ n, x n = s := by
  classical
  obtain ⟨last, hlast, hmax⟩ := exists_last (r := r) ⟨s, hs⟩
  have hbefore : x 0 = last ∨ r (x 0) last :=
    eq_or_rel (hmax _ hx.start_mem)
  obtain ⟨n, -, hn⟩ := hx.reaches_ahead hlast 0 hbefore
  have hfirst : ∀ t ∈ S, ¬ r t (x (n + 1)) := by
    rcases (hx.follows n).2 with ⟨hafter, -⟩ | ⟨-, h⟩
    · exact absurd (hn ▸ hafter) (hmax _ (hx.mem (n + 1)))
    · exact h
  have hahead : x (n + 1) = s ∨ r (x (n + 1)) s := eq_or_rel (hfirst s hs)
  obtain ⟨m, -, hm⟩ := hx.reaches_ahead hs (n + 1) hahead
  exact ⟨m, hm⟩

/-- Where the sequence is at one element twice, it goes on in the same way. -/
theorem Tour.repeats (hx : Tour r S x) {i j : ℕ} (hij : x i = x j) :
    ∀ k, x (i + k) = x (j + k)
  | 0 => hij
  | k + 1 => by
    have hk := hx.repeats hij k
    have hi := hx.follows (i + k)
    rw [hk] at hi
    exact hi.unique (hx.follows (j + k))

/-- Each element is reached within one turn. -/
theorem Tour.reaches_in_turn (hx : Tour r S x) {s : α} (hs : s ∈ S) :
    ∃ n < S.card, x n = s := by
  classical
  have hex := hx.reaches hs
  have hinj : Set.InjOn x (Finset.range (Nat.find hex + 1)) := by
    have hlt : ∀ i j, i < j → j ≤ Nat.find hex → x i ≠ x j := by
      intro i j hij hj heq
      -- The way on from `j` to `s` is also the way on from `i`.
      have hback := hx.repeats heq (Nat.find hex - j)
      rw [Nat.add_sub_cancel' hj, Nat.find_spec hex] at hback
      exact Nat.find_min hex (by omega) hback
    intro i hi j hj heq
    have hi' : i ≤ Nat.find hex := by simpa [Nat.lt_succ_iff] using hi
    have hj' : j ≤ Nat.find hex := by simpa [Nat.lt_succ_iff] using hj
    rcases Nat.lt_trichotomy i j with h | h | h
    · exact absurd heq (hlt i j h hj')
    · exact h
    · exact absurd heq.symm (hlt j i h hi')
  refine ⟨Nat.find hex, ?_, Nat.find_spec hex⟩
  have hcard := Finset.card_le_card_of_injOn x
    (fun i _ => hx.mem i) hinj
  rw [Finset.card_range] at hcard
  omega

end Tempr.Support.Cyclic
