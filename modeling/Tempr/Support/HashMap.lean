import Mathlib.Data.List.AList
import Mathlib.Data.List.Induction

/-!
# Hash maps

Finite maps as association lists without duplicate keys, and the map that a list
of pairs collects into: a later pair replaces an earlier one of the same key.
-/

namespace Tempr.Support

/-- A hash map; the order of its entries says nothing. -/
abbrev HashMap (K V : Type*) :=
  AList fun _ : K => V

namespace HashMap

variable {K V : Type*} [DecidableEq K]

/-- The map of the pairs in `l`. -/
def collect (l : List (K × V)) : HashMap K V :=
  l.foldl (fun m p => m.insert p.1 p.2) ∅

theorem collect_append_singleton (l : List (K × V)) (p : K × V) :
    collect (l ++ [p]) = (collect l).insert p.1 p.2 := by
  simp [collect]

/-- A collected map holds only pairs of the list. -/
theorem mem_of_lookup_collect {l : List (K × V)} {k : K} {v : V}
    (h : (collect l).lookup k = some v) : (k, v) ∈ l := by
  induction l using List.reverseRecOn with
  | nil => simp [collect] at h
  | append_singleton l p ih =>
      rw [collect_append_singleton] at h
      by_cases hk : k = p.1
      · subst hk
        rw [AList.lookup_insert] at h
        obtain rfl := Option.some.inj h
        simp
      · rw [AList.lookup_insert_ne hk] at h
        exact List.mem_append_left _ (ih h)

/-- The value of a key that has one value in the list. -/
theorem lookup_collect {l : List (K × V)} {k : K} {v : V} (h : (k, v) ∈ l)
    (hunique : ∀ v', (k, v') ∈ l → v' = v) :
    (collect l).lookup k = some v := by
  induction l using List.reverseRecOn with
  | nil => cases h
  | append_singleton l p ih =>
      rw [collect_append_singleton]
      by_cases hk : k = p.1
      · subst hk
        rw [AList.lookup_insert, hunique p.2 (by simp)]
      · rw [AList.lookup_insert_ne hk]
        apply ih
        · rcases List.mem_append.1 h with hl | hp
          · exact hl
          · exact absurd (congrArg Prod.fst (List.mem_singleton.1 hp)) hk
        · intro v' hv'
          exact hunique v' (List.mem_append_left _ hv')

theorem lookup_collect_eq_some_iff {l : List (K × V)} {k : K} {v : V}
    (hunique : ∀ v₁ v₂, (k, v₁) ∈ l → (k, v₂) ∈ l → v₁ = v₂) :
    (collect l).lookup k = some v ↔ (k, v) ∈ l := by
  constructor
  · exact mem_of_lookup_collect
  · intro h
    exact lookup_collect h fun v' hv' => hunique v' v hv' h

theorem lookup_collect_eq_none_iff {l : List (K × V)} {k : K} :
    (collect l).lookup k = none ↔ ∀ v, (k, v) ∉ l := by
  constructor
  · intro h v hv
    induction l using List.reverseRecOn with
    | nil => cases hv
    | append_singleton l p ih =>
        rw [collect_append_singleton] at h
        by_cases hk : k = p.1
        · subst hk
          rw [AList.lookup_insert] at h
          cases h
        · rw [AList.lookup_insert_ne hk] at h
          rcases List.mem_append.1 hv with hl | hp
          · exact ih h hl
          · exact hk (congrArg Prod.fst (List.mem_singleton.1 hp))
  · intro h
    cases hlookup : (collect l).lookup k with
    | none => rfl
    | some v => exact absurd (mem_of_lookup_collect hlookup) (h v)

/-- The map of the places in a list whose elements have different keys. -/
theorem lookup_places_eq_some_iff {α : Type*} {key : α → K} {l : List α}
    (h : (l.map key).Nodup) {k : K} {i : ℕ} :
    (collect (l.zipIdx.map fun p => (key p.1, p.2))).lookup k = some i ↔
      ∃ a, l[i]? = some a ∧ key a = k := by
  have hmem : ∀ j, (k, j) ∈ (l.zipIdx.map fun p => (key p.1, p.2)) ↔
      ∃ a, l[j]? = some a ∧ key a = k := by
    intro j
    simp only [List.mem_map, Prod.exists, Prod.mk.injEq,
      List.mem_zipIdx_iff_getElem?]
    constructor
    · rintro ⟨a, _, ha, hkey, rfl⟩
      exact ⟨a, ha, hkey⟩
    · rintro ⟨a, ha, hkey⟩
      exact ⟨a, j, ha, hkey, rfl⟩
  rw [lookup_collect_eq_some_iff, hmem]
  intro j j' hj hj'
  obtain ⟨a, ha, rfl⟩ := (hmem j).1 hj
  obtain ⟨b, hb, hkey⟩ := (hmem j').1 hj'
  have hlt : j < (l.map key).length := by
    rw [List.length_map]
    exact (List.getElem?_eq_some_iff.1 ha).1
  refine (List.getElem?_inj hlt h).1 ?_
  rw [List.getElem?_map, List.getElem?_map, ha, hb, Option.map_some,
    Option.map_some, hkey]

/-- What a map of lists holds after the values of `l` were appended one by one
to the lists of their keys. -/
theorem getD_lookup_foldl_append {α : Type*} (key : α → K) (value : α → V)
    (l : List α) (m : HashMap K (List V)) (k : K) :
    ((l.foldl (fun m a => m.insert (key a)
      ((m.lookup (key a)).getD [] ++ [value a])) m).lookup k).getD [] =
      (m.lookup k).getD [] ++
        (l.filter fun a => decide (key a = k)).map value := by
  induction l generalizing m with
  | nil => simp
  | cons a l ih =>
      rw [List.foldl_cons, ih, List.filter_cons]
      by_cases hk : key a = k
      · subst hk
        simp [AList.lookup_insert]
      · rw [AList.lookup_insert_ne (Ne.symm hk), if_neg (by simpa using hk)]

end HashMap

end Tempr.Support
