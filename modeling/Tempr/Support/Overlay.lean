import Mathlib.Data.List.MinMax
import Mathlib.Data.List.Sort
import Mathlib.Order.Lattice

/-!
# Layers over a list of slots

Layers are laid over the slots of a list one after the other, and each changes
the slots of its range.  What a slot holds in the end is decided by the layers
that cover it, in their order; where a layer overwrites, by the last of them.
Layers that are put in order by a stable sort leave on top the last of those
with the largest key.
-/

namespace Tempr.Support.Overlay

variable {α β γ : Type*}

/-- A change of the slots from `start` up to `stop`. -/
structure Layer (α : Type*) where
  start : ℕ
  stop : ℕ
  apply : α → α

namespace Layer

def Covers (layer : Layer α) (i : ℕ) : Prop :=
  layer.start ≤ i ∧ i < layer.stop

instance (layer : Layer α) (i : ℕ) : Decidable (layer.Covers i) :=
  inferInstanceAs (Decidable (_ ∧ _))

/-- Change the slots of a range; `none` when it does not lie in the list. -/
def lay (layer : Layer α) (slots : List α) : Option (List α) :=
  if layer.start ≤ layer.stop ∧ layer.stop ≤ slots.length then
    some (slots.mapIdx fun i a => if layer.Covers i then layer.apply a else a)
  else none

/-- The layer lies over slots that there are. -/
def Fits (layer : Layer α) (n : ℕ) : Prop :=
  layer.start ≤ layer.stop ∧ layer.stop ≤ n

theorem lay_of_fits {layer : Layer α} {slots : List α}
    (h : layer.Fits slots.length) :
    layer.lay slots = some (slots.mapIdx fun i a =>
      if layer.Covers i then layer.apply a else a) :=
  if_pos h

end Layer

def overlay (layers : List (Layer α)) (slots : List α) : Option (List α) :=
  layers.foldlM (fun slots layer => layer.lay slots) slots

/-- What becomes of one slot. -/
def through (layers : List (Layer α)) (i : ℕ) (a : α) : α :=
  (layers.filter fun layer => layer.Covers i).foldl
    (fun a layer => layer.apply a) a

theorem through_cons (layer : Layer α) (layers : List (Layer α)) (i : ℕ)
    (a : α) :
    through (layer :: layers) i a =
      through layers i (if layer.Covers i then layer.apply a else a) := by
  by_cases hcovers : layer.Covers i
  · simp [through, hcovers]
  · simp [through, hcovers]

/-- Layers that fit can be laid, and each slot goes through those that cover
it. -/
theorem overlay_eq {layers : List (Layer α)} {slots : List α}
    (hfits : ∀ layer ∈ layers, layer.Fits slots.length) :
    overlay layers slots = some (slots.mapIdx (through layers)) := by
  induction layers generalizing slots with
  | nil =>
      have hsame : slots.mapIdx (through []) = slots :=
        List.ext_getElem (by simp) (by simp [through])
      simp [overlay, hsame]
  | cons layer layers ih =>
      obtain ⟨hlayer, hrest⟩ := List.forall_mem_cons.mp hfits
      have hlater := @ih (slots.mapIdx fun i a =>
        if layer.Covers i then layer.apply a else a) (by simpa using hrest)
      rw [overlay, List.foldlM_cons, Layer.lay_of_fits hlayer]
      refine Eq.trans hlater (congrArg some ?_)
      rw [List.mapIdx_mapIdx]
      refine congrArg (fun f => slots.mapIdx f) ?_
      funext i a
      exact (through_cons layer layers i a).symm

/-- Where every layer overwrites, the last one that covers a slot is seen. -/
theorem through_overwrite (layers : List γ) (toLayer : γ → Layer α)
    (value : γ → α) (hvalue : ∀ c a, (toLayer c).apply a = value c) (i : ℕ)
    (a : α) :
    through (layers.map toLayer) i a =
      (((layers.filter fun c => (toLayer c).Covers i).getLast?).map
        value).getD a := by
  rw [through, List.filter_map, List.foldl_map]
  generalize hkept : layers.filter _ = kept
  replace hkept : layers.filter (fun c => decide ((toLayer c).Covers i)) = kept :=
    hkept
  rw [hkept]
  clear hkept
  induction kept using List.reverseRecOn with
  | nil => rfl
  | append_singleton kept c _ => simp [hvalue]

/-! ## Stable sorting -/

section Sorting

variable {r : α → α → Prop} [DecidableRel r]

theorem filter_orderedInsert (htrans : ∀ a b c, r a b → r b c → r a c)
    (p : α → Bool) (a : α) {s : List α} (hs : s.Pairwise r) :
    (s.orderedInsert r a).filter p =
      if p a then (s.filter p).orderedInsert r a else s.filter p := by
  induction s with
  | nil => cases hp : p a <;> simp [hp]
  | cons b s ih =>
      obtain ⟨hb, hs⟩ := List.pairwise_cons.mp hs
      by_cases hab : r a b
      · have hfirst : ∀ c ∈ (b :: s).filter p, r a c := by
          intro c hc
          rcases List.mem_cons.mp (List.mem_of_mem_filter hc) with rfl | hc
          · exact hab
          · exact htrans a b c hab (hb c hc)
        rw [List.orderedInsert_cons_of_le r s hab, List.filter_cons]
        refine ite_congr rfl (fun _ => ?_) fun _ => rfl
        cases hrest : (b :: s).filter p with
        | nil => rfl
        | cons c rest =>
            have hac : r a c := hfirst c (by rw [hrest]; simp)
            rw [List.orderedInsert_cons_of_le r rest hac]
      · rw [List.orderedInsert_of_not_le r s hab, List.filter_cons, ih hs,
          List.filter_cons]
        cases p a <;> cases p b <;> simp [hab]

/-- A sort keeps the order among the elements that a filter keeps. -/
theorem filter_insertionSort (htotal : ∀ a b, r a b ∨ r b a)
    (htrans : ∀ a b c, r a b → r b c → r a c) (p : α → Bool) (l : List α) :
    (l.insertionSort r).filter p = (l.filter p).insertionSort r := by
  have : Std.Total r := ⟨htotal⟩
  have : IsTrans α r := ⟨htrans⟩
  induction l with
  | nil => rfl
  | cons a l ih =>
      rw [List.insertionSort_cons,
        filter_orderedInsert htrans p a (List.pairwise_insertionSort r l), ih,
        List.filter_cons]
      cases p a <;> rfl

end Sorting

section Keys

variable [LinearOrder β] (key : α → β)

/-- Elements in the order of their keys. -/
def byKey (a b : α) : Prop := key a ≤ key b

instance : DecidableRel (byKey key) := fun a b =>
  inferInstanceAs (Decidable (key a ≤ key b))

instance : Std.Total (byKey key) := ⟨fun a b => le_total (key a) (key b)⟩

instance : IsTrans α (byKey key) := ⟨fun _ _ _ => le_trans⟩

theorem filter_insertionSort_byKey (p : α → Bool) (l : List α) :
    (l.insertionSort (byKey key)).filter p =
      (l.filter p).insertionSort (byKey key) :=
  filter_insertionSort (fun a b => le_total (key a) (key b))
    (fun _ _ _ => le_trans) p l

theorem getLast?_orderedInsert (a : α) {s : List α}
    (hs : s.Pairwise (byKey key)) :
    (s.orderedInsert (byKey key) a).getLast? =
      Option.casesOn s.getLast? (some a) fun c =>
        if key c < key a then some a else some c := by
  induction s with
  | nil => rfl
  | cons b s ih =>
      obtain ⟨hb, hs⟩ := List.pairwise_cons.mp hs
      by_cases hab : byKey key a b
      · have hlast : ∀ c ∈ (b :: s).getLast?, ¬key c < key a := by
          intro c hc
          rcases List.mem_cons.mp (List.mem_of_mem_getLast? hc) with rfl | hc
          · exact not_lt.mpr hab
          · exact not_lt.mpr (le_trans hab (hb c hc))
        rw [List.orderedInsert_cons_of_le _ s hab, List.getLast?_cons_cons]
        cases hc : (b :: s).getLast? with
        | none => simp at hc
        | some c => exact (if_neg (hlast c hc)).symm
      · rw [List.orderedInsert_of_not_le _ s hab, List.getLast?_cons, ih hs,
          List.getLast?_cons]
        cases s.getLast? with
        | none => simp [not_le.mp hab]
        | some c =>
            by_cases hca : key c < key a
            · simp [hca]
            · simp [hca]

/-- The top of a sorted list is the last of the elements with the largest
key. -/
theorem getLast?_insertionSort (l : List α) :
    (l.insertionSort (byKey key)).getLast? = l.reverse.argmax key := by
  induction l with
  | nil => rfl
  | cons a l ih =>
      rw [List.insertionSort_cons,
        getLast?_orderedInsert key a (List.pairwise_insertionSort _ l), ih,
        List.reverse_cons, List.argmax_concat]

end Keys

end Tempr.Support.Overlay
