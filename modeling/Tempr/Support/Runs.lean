import Mathlib.Data.List.Basic
import Mathlib.Tactic.Common

/-!
# Maximal runs of a marked list

A list whose elements are marked or not falls into its maximal runs of marked
elements, each behind the unmarked elements in front of it, and the unmarked
elements behind the last run.
-/

namespace Tempr.Support

variable {α : Type*}

/-- A run of marked elements, and the unmarked elements in front of it. -/
structure Run (α : Type*) where
  before : List α
  block : List α
  deriving DecidableEq, Repr

/-- The runs of a marked list, and the unmarked elements behind them. -/
structure Runs (α : Type*) where
  runs : List (Run α)
  rest : List α
  deriving DecidableEq, Repr

/-- The elements of a list of runs. -/
def runsToList (rs : List (Run α)) : List α :=
  rs.flatMap fun r => r.before ++ r.block

theorem runsToList_cons (r : Run α) (rs : List (Run α)) :
    runsToList (r :: rs) = r.before ++ r.block ++ runsToList rs :=
  rfl

theorem runsToList_append (rs ss : List (Run α)) :
    runsToList (rs ++ ss) = runsToList rs ++ runsToList ss :=
  List.flatMap_append

namespace Runs

/-- Put an element in front. -/
def cons : α × Bool → Runs α → Runs α
  | (x, false), ⟨[], rest⟩ => ⟨[], x :: rest⟩
  | (x, false), ⟨r :: rs, rest⟩ => ⟨⟨x :: r.before, r.block⟩ :: rs, rest⟩
  | (x, true), ⟨⟨[], block⟩ :: rs, rest⟩ => ⟨⟨[], x :: block⟩ :: rs, rest⟩
  | (x, true), ⟨rs, rest⟩ => ⟨⟨[], [x]⟩ :: rs, rest⟩

/-- Runs hold something, and something keeps each apart from the one before
it. -/
structure Separated (r : Runs α) : Prop where
  block_ne : ∀ s ∈ r.runs, s.block ≠ []
  before_ne : ∀ s ∈ r.runs.tail, s.before ≠ []

end Runs

/-- The maximal runs of a marked list. -/
def runsOf (xs : List (α × Bool)) : Runs α := xs.foldr Runs.cons ⟨[], []⟩

@[simp] theorem runsOf_nil : runsOf ([] : List (α × Bool)) = ⟨[], []⟩ := rfl

@[simp] theorem runsOf_cons (x : α × Bool) (xs : List (α × Bool)) :
    runsOf (x :: xs) = Runs.cons x (runsOf xs) :=
  rfl

theorem runsOf_of_unmarked {xs : List (α × Bool)}
    (h : ∀ x ∈ xs, x.2 = false) : runsOf xs = ⟨[], xs.map Prod.fst⟩ := by
  induction xs with
  | nil => rfl
  | cons x xs ih =>
      obtain ⟨x, marked⟩ := x
      rw [List.forall_mem_cons] at h
      obtain rfl : marked = false := h.1
      rw [runsOf_cons, ih h.2]
      rfl

/-- Unmarked elements go in front of the first run. -/
theorem runsOf_append_of_unmarked {us : List (α × Bool)}
    (h : ∀ x ∈ us, x.2 = false) {xs : List (α × Bool)} {r : Run α}
    {rs : List (Run α)} {rest : List α} (hxs : runsOf xs = ⟨r :: rs, rest⟩) :
    runsOf (us ++ xs) =
      ⟨⟨us.map Prod.fst ++ r.before, r.block⟩ :: rs, rest⟩ := by
  induction us with
  | nil => exact hxs
  | cons x us ih =>
      obtain ⟨x, marked⟩ := x
      rw [List.forall_mem_cons] at h
      obtain rfl : marked = false := h.1
      rw [List.cons_append, runsOf_cons, ih h.2]
      rfl

/-- Marked elements in front of an unmarked one, or at the end, are a run. -/
theorem runsOf_append_of_marked {bs : List (α × Bool)} (hne : bs ≠ [])
    (h : ∀ x ∈ bs, x.2 = true) {xs : List (α × Bool)}
    (hxs : ∀ x ∈ xs.head?, x.2 = false) :
    runsOf (bs ++ xs) =
      ⟨⟨[], bs.map Prod.fst⟩ :: (runsOf xs).runs, (runsOf xs).rest⟩ := by
  induction bs with
  | nil => exact absurd rfl hne
  | cons x bs ih =>
      obtain ⟨x, marked⟩ := x
      rw [List.forall_mem_cons] at h
      obtain rfl : marked = true := h.1
      cases bs with
      | cons y bs =>
          rw [List.cons_append, runsOf_cons, ih (by simp) h.2]
          rfl
      | nil =>
          cases xs with
          | nil => rfl
          | cons y xs =>
              -- The run ends here: the next run starts behind `y`.
              obtain ⟨y, marked⟩ := y
              obtain rfl : marked = false := hxs (y, marked) rfl
              rw [List.singleton_append, runsOf_cons, runsOf_cons]
              rcases runsOf xs with ⟨_ | ⟨r, rs⟩, rest⟩
              · rfl
              · rfl

/-- The first run of a list, and the runs behind it. -/
theorem runsOf_run {us bs xs : List (α × Bool)} (hus : ∀ x ∈ us, x.2 = false)
    (hne : bs ≠ []) (hbs : ∀ x ∈ bs, x.2 = true)
    (hxs : ∀ x ∈ xs.head?, x.2 = false) :
    runsOf (us ++ (bs ++ xs)) =
      ⟨⟨us.map Prod.fst, bs.map Prod.fst⟩ :: (runsOf xs).runs,
        (runsOf xs).rest⟩ := by
  have h := runsOf_append_of_unmarked hus
    (runsOf_append_of_marked hne hbs hxs)
  simpa using h

theorem Runs.Separated.cons {runs : Runs α} (h : runs.Separated)
    (x : α × Bool) : (Runs.cons x runs).Separated := by
  obtain ⟨x, marked⟩ := x
  obtain ⟨rs, rest⟩ := runs
  obtain ⟨hblock, hbefore⟩ := h
  cases rs with
  | nil =>
      cases marked with
      | false => exact ⟨by simp [Runs.cons], by simp [Runs.cons]⟩
      | true => exact ⟨by simp [Runs.cons], by simp [Runs.cons]⟩
  | cons r rs =>
      obtain ⟨before, block⟩ := r
      simp only [List.forall_mem_cons, List.tail_cons] at hblock hbefore
      cases marked with
      | false => exact ⟨List.forall_mem_cons.mpr hblock, hbefore⟩
      | true =>
          cases before with
          | nil =>
              have hne : x :: block ≠ [] := by simp
              exact ⟨List.forall_mem_cons.mpr ⟨hne, hblock.2⟩, hbefore⟩
          | cons y us =>
              -- A new run starts in front of the unmarked `y`.
              have hne : [x] ≠ [] := by simp
              have hapart : y :: us ≠ [] := by simp
              exact ⟨List.forall_mem_cons.mpr ⟨hne,
                  List.forall_mem_cons.mpr hblock⟩,
                List.forall_mem_cons.mpr ⟨hapart, hbefore⟩⟩

theorem runsOf_separated (xs : List (α × Bool)) : (runsOf xs).Separated := by
  induction xs with
  | nil => exact ⟨by simp, by simp⟩
  | cons x xs ih => exact ih.cons x

/-- The runs of a list contain its elements in their order. -/
theorem runsOf_toList (xs : List (α × Bool)) :
    runsToList (runsOf xs).runs ++ (runsOf xs).rest = xs.map Prod.fst := by
  induction xs with
  | nil => rfl
  | cons x xs ih =>
      obtain ⟨x, marked⟩ := x
      rw [runsOf_cons, List.map_cons, ← ih]
      rcases runsOf xs with ⟨_ | ⟨⟨_ | ⟨y, us⟩, block⟩, rs⟩, rest⟩
      all_goals
        cases marked
        · simp [Runs.cons, runsToList]
        · simp [Runs.cons, runsToList]

/-- What lies outside the runs is unmarked. -/
theorem runsOf_unmarked (xs : List (α × Bool)) :
    ((runsOf xs).runs.flatMap Run.before) ++ (runsOf xs).rest =
      (xs.filter fun x => !x.2).map Prod.fst := by
  induction xs with
  | nil => rfl
  | cons x xs ih =>
      obtain ⟨x, marked⟩ := x
      rw [runsOf_cons]
      cases marked
      all_goals
        rcases hruns : runsOf xs with ⟨_ | ⟨⟨_ | ⟨y, us⟩, block⟩, rs⟩, rest⟩
        all_goals
          rw [hruns] at ih
          simpa [Runs.cons] using ih

end Tempr.Support
