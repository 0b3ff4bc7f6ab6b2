import Mathlib.Algebra.GroupWithZero.Nat
import Mathlib.Data.List.Dedup
import Mathlib.Data.List.Destutter
import Tempr.Intel.Silence

/-!
# One more source

How the report of a bare reference depends on the levels it is resolved in, and
when one more source in one of them makes no difference.
-/

namespace Tempr.Intel

open Tempr.Support
open Tempr.Editor (ByteRange)

/-! ## Lists of labels -/

theorem sortedDistinct_eq_dedup (l : List Text) :
    CatalogCache.sortedDistinct l = (l.insertionSort (· ≤ ·)).dedup :=
  (List.pairwise_insertionSort (· ≤ ·) l).destutter_eq_dedup

theorem sortedDistinct_perm (l : List Text) :
    (CatalogCache.sortedDistinct l).Perm l.dedup := by
  rw [sortedDistinct_eq_dedup]
  exact (List.perm_insertionSort _ l).dedup

theorem sortedDistinct_congr {l l' : List Text}
    (h : l.dedup.Perm l'.dedup) :
    CatalogCache.sortedDistinct l = CatalogCache.sortedDistinct l' := by
  have hsorted : ∀ l : List Text,
      (CatalogCache.sortedDistinct l).Pairwise (· ≤ ·) := by
    intro l
    rw [sortedDistinct_eq_dedup]
    exact (List.pairwise_insertionSort (· ≤ ·) l).sublist (List.dedup_sublist _)
  exact List.Perm.eq_of_pairwise (fun _ _ _ _ => le_antisymm) (hsorted _)
    (hsorted _)
    ((sortedDistinct_perm l).trans (h.trans (sortedDistinct_perm l').symm))

theorem sortedDistinct_cons_of_mem {a : Text} {l : List Text} (h : a ∈ l) :
    CatalogCache.sortedDistinct (a :: l) = CatalogCache.sortedDistinct l :=
  sortedDistinct_congr (by rw [List.dedup_cons_of_mem h])

/-- How long a joined list is, with one more separator at its end. -/
theorem length_intercalate {α : Type*} (sep : List α) {l : List (List α)}
    (h : l ≠ []) :
    (sep.intercalate l).length + sep.length =
      (l.map fun x => x.length + sep.length).sum := by
  induction l with
  | nil => exact absurd rfl h
  | cons a l ih =>
      cases l with
      | nil => simp [List.intercalate]
      | cons b l =>
          have ih := ih (List.cons_ne_nil b l)
          rw [List.map_cons, List.sum_cons, ← ih]
          simp only [List.intercalate, List.intersperse_cons_cons,
            List.flatten_cons, List.length_append]
          omega

/-- A further label makes the joined text longer, unless it is there. -/
theorem intercalate_cons_iff (sep : List Char) {a : Text} {l : List Text}
    (hsep : sep ≠ []) (hl : l ≠ []) :
    (sep.intercalate (CatalogCache.sortedDistinct (a :: l))).length =
        (sep.intercalate (CatalogCache.sortedDistinct l)).length ↔ a ∈ l := by
  constructor
  · intro h
    by_contra hmem
    have hne : ∀ {m : List Text}, m ≠ [] → CatalogCache.sortedDistinct m ≠ [] := by
      intro m hm hnil
      have hperm := sortedDistinct_perm m
      rw [hnil] at hperm
      exact hm (List.dedup_eq_nil m |>.1 hperm.nil_eq.symm)
    have hlong := length_intercalate sep (hne (List.cons_ne_nil a l))
    have hshort := length_intercalate sep (hne hl)
    rw [((sortedDistinct_perm (a :: l)).map _).sum_nat,
      List.dedup_cons_of_notMem hmem, List.map_cons, List.sum_cons] at hlong
    rw [((sortedDistinct_perm l).map _).sum_nat] at hshort
    have hpos : 0 < sep.length := List.length_pos_of_ne_nil hsep
    omega
  · intro h
    rw [sortedDistinct_cons_of_mem h]

/-! ## Levels -/

section

variable {Id : Type} [Unicode] {catalog : CatalogCache Id} {name : Text}
  {range : ByteRange}

theorem resolveBare_kind {anyColumns : Bool} {frames : List Frame}
    {d : Diagnostic}
    (h : resolveBare catalog name range anyColumns frames = some d) :
    d.kind = .unknownColumn ∨ d.kind = .ambiguousColumn := by
  induction frames generalizing anyColumns with
  | nil =>
      rw [resolveBare] at h
      split at h <;> cases h
      exact .inl rfl
  | cons frame frames ih =>
      rw [resolveBare] at h
      split at h
      · exact ih h
      · cases h
      · cases h
        exact .inr rfl

/-- Levels without the column are passed over. -/
theorem resolveBare_append {inner : List Frame}
    (h : ∀ frame ∈ inner, bareHits catalog name frame = [])
    (anyColumns : Bool) (outer : List Frame) :
    resolveBare catalog name range anyColumns (inner ++ outer) =
      resolveBare catalog name range (anyColumns || inner.any Frame.anyColumns)
        outer := by
  induction inner generalizing anyColumns with
  | nil => simp
  | cons frame inner ih =>
      rw [List.forall_mem_cons] at h
      rw [List.cons_append, resolveBare, h.1]
      refine (ih h.2 _).trans ?_
      rw [List.any_cons, Bool.or_assoc]

/-- The levels around one with the column do not matter. -/
theorem resolveBare_append_of_hit {inner : List Frame}
    (h : ∃ frame ∈ inner, bareHits catalog name frame ≠ []) (anyColumns : Bool)
    (outer outer' : List Frame) :
    resolveBare catalog name range anyColumns (inner ++ outer) =
      resolveBare catalog name range anyColumns (inner ++ outer') := by
  induction inner generalizing anyColumns with
  | nil => simp at h
  | cons frame inner ih =>
      rw [List.cons_append, List.cons_append, resolveBare, resolveBare]
      split
      · rename_i hnil
        rw [List.exists_mem_cons_iff] at h
        exact ih (h.resolve_left fun hne => hne hnil) _
      · rfl
      · rfl

/-! ## One level -/

/-- What a name is reported as that several sources have. -/
def ambiguity (name : Text) (range : ByteRange) (hits : List Text) :
    Diagnostic :=
  .new .ambiguousColumn range
    ("ambiguous column `".toList ++ name ++ "` (matches ".toList
      ++ ", ".toList.intercalate (CatalogCache.sortedDistinct hits)
      ++ ")".toList)

omit [Unicode] in
theorem ambiguity_cons_iff {a : Text} {hits : List Text} (h : hits ≠ []) :
    ambiguity name range (a :: hits) = ambiguity name range hits ↔
      a ∈ hits := by
  constructor
  · intro heq
    have hlength := congrArg (fun d => d.message.length) heq
    simp only [ambiguity, Diagnostic.new, List.length_append] at hlength
    refine (intercalate_cons_iff ", ".toList (by decide) h).1 ?_
    omega
  · intro hmem
    rw [ambiguity, ambiguity, sortedDistinct_cons_of_mem hmem]

variable {anyColumns : Bool} {frame : Frame}

theorem resolveBare_no_hit (h : bareHits catalog name frame = [])
    (outer : List Frame) :
    resolveBare catalog name range anyColumns (frame :: outer) =
      resolveBare catalog name range (anyColumns || frame.anyColumns) outer := by
  rw [resolveBare, h]

theorem resolveBare_one_hit {a : Text} (h : bareHits catalog name frame = [a])
    (outer : List Frame) :
    resolveBare catalog name range anyColumns (frame :: outer) = none := by
  rw [resolveBare, h]

theorem resolveBare_many_hits {a b : Text} {hits : List Text}
    (h : bareHits catalog name frame = a :: b :: hits) (outer : List Frame) :
    resolveBare catalog name range anyColumns (frame :: outer) =
      some (ambiguity name range (a :: b :: hits)) := by
  rw [resolveBare, h]
  rfl

/-- The order of the sources of a level does not matter. -/
theorem resolveBare_perm {frame' : Frame}
    (h : frame.bindings.Perm frame'.bindings) (outer : List Frame) :
    resolveBare catalog name range anyColumns (frame :: outer) =
      resolveBare catalog name range anyColumns (frame' :: outer) := by
  have hhits : (bareHits catalog name frame).Perm
      (bareHits catalog name frame') := (h.filter _).map _
  have hany : frame.anyColumns = frame'.anyColumns :=
    h.any_eq
  match hhere : bareHits catalog name frame,
      hthere : bareHits catalog name frame' with
  | [], [] =>
      rw [resolveBare_no_hit hhere, resolveBare_no_hit hthere, hany]
  | [a], [b] =>
      rw [resolveBare_one_hit hhere, resolveBare_one_hit hthere]
  | a :: b :: hits, c :: d :: hits' =>
      rw [hhere, hthere] at hhits
      rw [resolveBare_many_hits hhere, resolveBare_many_hits hthere, ambiguity,
        ambiguity, sortedDistinct_congr hhits.dedup]
  | [], _ :: _ => simp [hhere, hthere] at hhits
  | [_], [] => simp [hhere, hthere] at hhits
  | _ :: _ :: _, [] => simp [hhere, hthere] at hhits
  | [_], _ :: _ :: _ => simpa [hhere, hthere] using hhits.length_eq
  | _ :: _ :: _, [_] => simpa [hhere, hthere] using hhits.length_eq

/-! ## Outer levels -/

/-- Nothing is reported of a name that no inner level has: the innermost level
with the column has it once, or no level has it and no columns are in sight. -/
def FoundOutside (catalog : CatalogCache Id) (name : Text) (anyColumns : Bool)
    (outer : List Frame) : Prop :=
  match outer.find? fun frame => !(bareHits catalog name frame).isEmpty with
  | some frame => (bareHits catalog name frame).length = 1
  | none => anyColumns = false ∧ ∀ frame ∈ outer, frame.anyColumns = false

instance (outer : List Frame) :
    Decidable (FoundOutside catalog name anyColumns outer) :=
  match h : outer.find? fun frame => !(bareHits catalog name frame).isEmpty with
  | some frame =>
      decidable_of_iff ((bareHits catalog name frame).length = 1)
        (by rw [FoundOutside, h])
  | none =>
      decidable_of_iff
        (anyColumns = false ∧ ∀ frame ∈ outer, frame.anyColumns = false)
        (by rw [FoundOutside, h])

theorem resolveBare_eq_none_iff {outer : List Frame} :
    resolveBare catalog name range anyColumns outer = none ↔
      FoundOutside catalog name anyColumns outer := by
  induction outer generalizing anyColumns with
  | nil => cases anyColumns <;> simp [resolveBare, FoundOutside]
  | cons frame outer ih =>
      rcases hhere : bareHits catalog name frame with _ | ⟨a, _ | ⟨b, hits⟩⟩
      · rw [resolveBare_no_hit hhere, ih]
        simp only [FoundOutside, List.find?_cons, hhere, List.isEmpty_nil,
          Bool.not_true]
        cases outer.find? fun frame =>
            !(bareHits catalog name frame).isEmpty with
        | some found => rfl
        | none => simp [and_assoc]
      · rw [resolveBare_one_hit hhere]
        simp [FoundOutside, hhere]
      · rw [resolveBare_many_hits hhere]
        simp [FoundOutside, hhere]

/-- Further columns in sight make no difference to a name that the outer levels
have, or where columns are in sight already. -/
theorem resolveBare_true_eq_iff {outer : List Frame} :
    resolveBare catalog name range true outer =
        resolveBare catalog name range anyColumns outer ↔
      anyColumns = true ∨ ∃ frame ∈ outer,
        bareHits catalog name frame ≠ [] ∨ frame.anyColumns = true := by
  induction outer generalizing anyColumns with
  | nil => cases anyColumns <;> simp [resolveBare]
  | cons frame outer ih =>
      rcases hhere : bareHits catalog name frame with _ | ⟨a, _ | ⟨b, hits⟩⟩
      · rw [resolveBare_no_hit hhere, resolveBare_no_hit hhere, Bool.true_or,
          ih]
        simp [hhere, or_assoc]
      · rw [resolveBare_one_hit hhere, resolveBare_one_hit hhere]
        simp [hhere]
      · rw [resolveBare_many_hits hhere, resolveBare_many_hits hhere]
        simp [hhere]

/-! ## One more source in a level -/

theorem bareHits_cons (target : Binding) (ctes bindings : List Binding) :
    bareHits catalog name ⟨ctes, target :: bindings⟩ =
      if target.columnHits name catalog = [] then
        bareHits catalog name ⟨ctes, bindings⟩
      else target.label :: bareHits catalog name ⟨ctes, bindings⟩ := by
  rw [bareHits, bareHits, List.filter_cons]
  by_cases hhits : target.columnHits name catalog = []
  · simp [hhits]
  · have hcolumns : target.columns ≠ [] := by
      intro hnil
      exact hhits (by simp [Binding.columnHits, hnil])
    simp [hhits, hcolumns]

/-- Where the reports of a name in a level with and without the source `target`
agree: the source has no such column, and its columns are not the only ones in
sight; or it has one, and so have two others, one of the same label, or nothing
is reported of the name outside of the level. -/
def Unmoved (catalog : CatalogCache Id) (name : Text) (target : Binding)
    (anyColumns : Bool) (frame : Frame) (outer : List Frame) : Prop :=
  if target.columnHits name catalog = [] then
    target.columns = [] ∨ bareHits catalog name frame ≠ [] ∨
      anyColumns = true ∨ frame.anyColumns = true ∨
      ∃ level ∈ outer, bareHits catalog name level ≠ [] ∨ level.anyColumns = true
  else
    (bareHits catalog name frame = [] ∧
      FoundOutside catalog name (anyColumns || frame.anyColumns) outer) ∨
    (2 ≤ (bareHits catalog name frame).length ∧
      target.label ∈ bareHits catalog name frame)

instance (target : Binding) (outer : List Frame) :
    Decidable (Unmoved catalog name target anyColumns frame outer) :=
  inferInstanceAs (Decidable (if target.columnHits name catalog = [] then
    _ ∨ _ ≠ [] ∨ _ ∨ _ ∨ ∃ level ∈ outer, _ ∨ _ else (_ ∧ _) ∨ (_ ∧ _)))

/-- A source without the column only shows that there are columns. -/
theorem resolveBare_cons_no_hit {target : Binding} (ctes bindings : List Binding)
    (h : target.columnHits name catalog = []) (outer : List Frame) :
    resolveBare catalog name range anyColumns
        (⟨ctes, target :: bindings⟩ :: outer) =
      resolveBare catalog name range (anyColumns || !target.columns.isEmpty)
        (⟨ctes, bindings⟩ :: outer) := by
  have hany : (anyColumns || Frame.anyColumns ⟨ctes, target :: bindings⟩) =
      (anyColumns || !target.columns.isEmpty ||
        Frame.anyColumns ⟨ctes, bindings⟩) := by
    rw [Frame.anyColumns, List.any_cons, Bool.or_assoc]
    rfl
  rw [resolveBare, bareHits_cons, if_pos h, hany]
  rfl

theorem resolveBare_cons_eq_iff (target : Binding) (anyColumns : Bool)
    (ctes bindings : List Binding) (outer : List Frame) :
    resolveBare catalog name range anyColumns
          (⟨ctes, target :: bindings⟩ :: outer) =
        resolveBare catalog name range anyColumns
          (⟨ctes, bindings⟩ :: outer) ↔
      Unmoved catalog name target anyColumns ⟨ctes, bindings⟩ outer := by
  rw [Unmoved]
  by_cases hhits : target.columnHits name catalog = []
  · rw [if_pos hhits, resolveBare_cons_no_hit ctes bindings hhits]
    match hhere : bareHits catalog name ⟨ctes, bindings⟩ with
    | [] =>
        rw [resolveBare_no_hit hhere, resolveBare_no_hit hhere]
        cases hcolumns : target.columns with
        | nil => simp
        | cons column columns =>
            rw [List.isEmpty_cons, Bool.not_false, Bool.or_true, Bool.true_or,
              resolveBare_true_eq_iff]
            simp [or_assoc]
    | [a] =>
        rw [resolveBare_one_hit hhere, resolveBare_one_hit hhere]
        simp
    | a :: b :: hits =>
        rw [resolveBare_many_hits hhere, resolveBare_many_hits hhere]
        simp
  · rw [if_neg hhits]
    have hcons : bareHits catalog name ⟨ctes, target :: bindings⟩ =
        target.label :: bareHits catalog name ⟨ctes, bindings⟩ := by
      rw [bareHits_cons, if_neg hhits]
    match hhere : bareHits catalog name ⟨ctes, bindings⟩ with
    | [] =>
        rw [hhere] at hcons
        rw [resolveBare_one_hit hcons, resolveBare_no_hit hhere, eq_comm,
          resolveBare_eq_none_iff]
        simp
    | [a] =>
        rw [hhere] at hcons
        rw [resolveBare_many_hits hcons, resolveBare_one_hit hhere]
        simp
    | a :: b :: hits =>
        rw [hhere] at hcons
        rw [resolveBare_many_hits hcons, resolveBare_many_hits hhere,
          Option.some.injEq, ambiguity_cons_iff (List.cons_ne_nil a _)]
        simp

end

end Tempr.Intel
