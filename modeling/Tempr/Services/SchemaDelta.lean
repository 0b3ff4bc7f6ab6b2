import Tempr.Services.SchemaRefresh

/-!
# Fingerprint differences

`diff_fingerprints` removes the keys of the sweep one by one from the map of
the cached versions. What the loop has found after a prefix of the sweep gives
the exact difference at its end.
-/

namespace Tempr.Services.SchemaService

open Tempr.Support

/-- The key of a fingerprint. -/
def sweptKey (f : SchemaFingerprint) : SchemaObjectKind × Nat :=
  (domainKind f.kind, f.nativeId)

/-- The key and version of a record. -/
def recordEntry (f : SchemaFingerprintRecord) :
    (SchemaObjectKind × Nat) × Nat :=
  ((f.kind, f.nativeId), f.version)

abbrev Key : Type :=
  SchemaObjectKind × Nat

variable {found : HashMap Key Nat × List Key × List Key} {f : SchemaFingerprint}

theorem diffStep_of_unknown (h : found.1.lookup (sweptKey f) = none) :
    diffStep found f = (found.1, found.2.1 ++ [sweptKey f], found.2.2) := by
  rw [sweptKey] at h
  simp only [diffStep, h, sweptKey]

theorem diffStep_of_known {version : Nat}
    (h : found.1.lookup (sweptKey f) = some version) :
    diffStep found f = if version = f.version
      then (found.1.erase (sweptKey f), found.2)
      else (found.1.erase (sweptKey f), found.2.1,
        found.2.2 ++ [sweptKey f]) := by
  rw [sweptKey] at h
  simp only [diffStep, h, sweptKey]

/-- What the loop has found after the prefix `done` of the sweep. -/
structure Found (before : HashMap Key Nat) (done : List SchemaFingerprint)
    (found : HashMap Key Nat × List Key × List Key) : Prop where
  rest : ∀ k, found.1.lookup k
    = if k ∈ done.map sweptKey then none else before.lookup k
  added : ∀ k, k ∈ found.2.1 ↔ k ∈ done.map sweptKey ∧ before.lookup k = none
  changed : ∀ k, k ∈ found.2.2 ↔ ∃ f ∈ done, sweptKey f = k ∧
    ∃ version, before.lookup k = some version ∧ version ≠ f.version

theorem found_nil (before : HashMap Key Nat) :
    Found before [] (before, [], []) := by
  constructor <;> simp

section Step

variable {before : HashMap Key Nat} {done : List SchemaFingerprint}
  {f : SchemaFingerprint}

theorem mem_keys_concat (done : List SchemaFingerprint)
    (f : SchemaFingerprint) (k : Key) :
    k ∈ (done ++ [f]).map sweptKey ↔
      k ∈ done.map sweptKey ∨ k = sweptKey f := by
  simp [or_comm, eq_comm]

/-- A relation that is not known in another version leaves the changed ones. -/
theorem Found.changed_of_same (h : Found before done found)
    (hsame : ∀ version, before.lookup (sweptKey f) = some version →
      version = f.version) (k : Key) :
    k ∈ found.2.2 ↔ ∃ g ∈ done ++ [f],
      sweptKey g = k ∧ ∃ v, before.lookup k = some v ∧ v ≠ g.version := by
  rw [h.changed]
  constructor
  · rintro ⟨g, hg, hk⟩
    exact ⟨g, List.mem_append_left _ hg, hk⟩
  · rintro ⟨g, hg, rfl, v, hv, hne⟩
    rcases List.mem_append.1 hg with hg | hg
    · exact ⟨g, hg, rfl, v, hv, hne⟩
    · obtain rfl := List.mem_singleton.1 hg
      exact absurd (hsame v hv) hne

/-- A step for a relation that was not known. -/
theorem Found.step_unknown (h : Found before done found)
    (hlookup : found.1.lookup (sweptKey f) = before.lookup (sweptKey f))
    (hnone : before.lookup (sweptKey f) = none) :
    Found before (done ++ [f]) (diffStep found f) := by
  rw [diffStep_of_unknown (hlookup.trans hnone)]
  constructor
  · intro k
    simp only
    rw [h.rest]
    simp only [mem_keys_concat]
    by_cases hk : k = sweptKey f
    · subst hk
      simp [hnone]
    · simp [hk]
  · intro k
    simp only [List.mem_append, List.mem_singleton, h.added, mem_keys_concat]
    constructor
    · rintro (⟨hk, hunknown⟩ | rfl)
      · exact ⟨.inl hk, hunknown⟩
      · exact ⟨.inr rfl, hnone⟩
    · rintro ⟨hk | rfl, hunknown⟩
      · exact .inl ⟨hk, hunknown⟩
      · exact .inr rfl
  · refine h.changed_of_same fun version hversion => ?_
    rw [hnone] at hversion
    cases hversion

/-- A step for a relation that was known. -/
theorem Found.step_known (h : Found before done found)
    (hlookup : found.1.lookup (sweptKey f) = before.lookup (sweptKey f))
    {version : Nat} (hversion : before.lookup (sweptKey f) = some version) :
    Found before (done ++ [f]) (diffStep found f) := by
  have hrest : ∀ k, (found.1.erase (sweptKey f)).lookup k
      = if k ∈ (done ++ [f]).map sweptKey then none else before.lookup k := by
    intro k
    by_cases hk : k = sweptKey f
    · subst hk
      rw [AList.lookup_erase, if_pos ((mem_keys_concat _ _ _).2 (.inr rfl))]
    · rw [AList.lookup_erase_ne hk, h.rest]
      simp only [mem_keys_concat, hk, or_false]
  have hadded : ∀ k, k ∈ found.2.1 ↔
      k ∈ (done ++ [f]).map sweptKey ∧ before.lookup k = none := by
    intro k
    rw [h.added, mem_keys_concat]
    constructor
    · rintro ⟨hk, hnone⟩
      exact ⟨.inl hk, hnone⟩
    · rintro ⟨hk | rfl, hnone⟩
      · exact ⟨hk, hnone⟩
      · rw [hversion] at hnone
        cases hnone
  rw [diffStep_of_known (hlookup.trans hversion)]
  by_cases hsame : version = f.version
  · simp only [hsame, if_true]
    refine ⟨hrest, hadded, h.changed_of_same fun v hv => ?_⟩
    rw [hversion] at hv
    exact (Option.some.inj hv).symm.trans hsame
  · simp only [hsame, if_false]
    refine ⟨hrest, hadded, fun k => ?_⟩
    simp only [List.mem_append, List.mem_singleton, h.changed]
    constructor
    · rintro (⟨g, hg, hk⟩ | rfl)
      · exact ⟨g, .inl hg, hk⟩
      · exact ⟨f, .inr rfl, rfl, version, hversion, hsame⟩
    · rintro ⟨g, hg | rfl, rfl, hne⟩
      · exact .inl ⟨g, hg, rfl, hne⟩
      · exact .inr rfl

/-- One step of the loop. -/
theorem Found.step (h : Found before done found)
    (hnew : sweptKey f ∉ done.map sweptKey) :
    Found before (done ++ [f]) (diffStep found f) := by
  have hlookup : found.1.lookup (sweptKey f) = before.lookup (sweptKey f) := by
    rw [h.rest, if_neg hnew]
  cases hversion : before.lookup (sweptKey f) with
  | none => exact h.step_unknown hlookup hversion
  | some version => exact h.step_known hlookup hversion

end Step

/-- The whole loop. -/
theorem found_foldl (before : HashMap Key Nat) {swept : List SchemaFingerprint}
    (hnodup : (swept.map sweptKey).Nodup) :
    Found before swept (swept.foldl diffStep (before, [], [])) := by
  induction swept using List.reverseRecOn with
  | nil => exact found_nil before
  | append_singleton swept f ih =>
      rw [List.map_append, List.nodup_append] at hnodup
      rw [List.foldl_append]
      apply (ih hnodup.1).step
      intro hmem
      exact hnodup.2.2 _ hmem _ (by simp) rfl

/-! ## The difference -/

variable {cached : List SchemaFingerprintRecord} {swept : List SchemaFingerprint}

/-- Every key has one version in `cached`. -/
def OneVersion (cached : List SchemaFingerprintRecord) : Prop :=
  ∀ k v v', (k, v) ∈ cached.map recordEntry → (k, v') ∈ cached.map recordEntry →
    v = v'

theorem lookup_before (hcached : OneVersion cached) {k : Key} {v : Nat} :
    (HashMap.collect (cached.map fun f => ((f.kind, f.nativeId), f.version)) :
      HashMap Key Nat).lookup k = some v ↔ (k, v) ∈ cached.map recordEntry :=
  HashMap.lookup_collect_eq_some_iff fun v₁ v₂ => hcached k v₁ v₂

/-- The added keys are the swept ones that are not cached. -/
theorem mem_added_iff (hnodup : (swept.map sweptKey).Nodup) {k : Key} :
    k ∈ (diffFingerprints cached swept).added ↔
      k ∈ swept.map sweptKey ∧ ∀ v, (k, v) ∉ cached.map recordEntry := by
  have hfound := found_foldl (HashMap.collect
    (cached.map fun f => ((f.kind, f.nativeId), f.version))) hnodup
  rw [diffFingerprints, List.mem_insertionSort, hfound.added,
    HashMap.lookup_collect_eq_none_iff]
  rfl

/-- The changed keys are the common ones with another version. -/
theorem mem_changed_iff (hcached : OneVersion cached)
    (hnodup : (swept.map sweptKey).Nodup) {k : Key} :
    k ∈ (diffFingerprints cached swept).changed ↔
      ∃ f ∈ swept, sweptKey f = k ∧
        ∃ v, (k, v) ∈ cached.map recordEntry ∧ v ≠ f.version := by
  have hfound := found_foldl (HashMap.collect
    (cached.map fun f => ((f.kind, f.nativeId), f.version))) hnodup
  rw [diffFingerprints, List.mem_insertionSort, hfound.changed]
  simp only [lookup_before hcached]

/-- The dropped keys are the cached ones that are not swept. -/
theorem mem_dropped_iff (hcached : OneVersion cached)
    (hnodup : (swept.map sweptKey).Nodup) {k : Key} :
    k ∈ (diffFingerprints cached swept).dropped ↔
      (∃ v, (k, v) ∈ cached.map recordEntry) ∧ k ∉ swept.map sweptKey := by
  have hfound := found_foldl (HashMap.collect
    (cached.map fun f => ((f.kind, f.nativeId), f.version))) hnodup
  rw [diffFingerprints, List.mem_insertionSort, ← AList.mem_keys,
    ← AList.lookup_isSome, hfound.rest]
  split
  · rename_i hmem
    simp [hmem]
  · rename_i hmem
    simp only [hmem, not_false_eq_true, and_true, Option.isSome_iff_exists,
      lookup_before hcached]

/-- A key that is swept and neither added nor changed has its cached version. -/
theorem version_of_unchanged (hcached : OneVersion cached)
    (hnodup : (swept.map sweptKey).Nodup) {f : SchemaFingerprint}
    (hf : f ∈ swept)
    (hadded : sweptKey f ∉ (diffFingerprints cached swept).added)
    (hchanged : sweptKey f ∉ (diffFingerprints cached swept).changed) :
    (sweptKey f, f.version) ∈ cached.map recordEntry := by
  by_contra hversion
  have hnone : ∀ v, (sweptKey f, v) ∉ cached.map recordEntry := by
    intro v hv
    refine hchanged ((mem_changed_iff hcached hnodup).2 ⟨f, hf, rfl, v, hv, ?_⟩)
    rintro rfl
    exact hversion hv
  exact hadded ((mem_added_iff hnodup).2 ⟨List.mem_map_of_mem hf, hnone⟩)

end Tempr.Services.SchemaService
