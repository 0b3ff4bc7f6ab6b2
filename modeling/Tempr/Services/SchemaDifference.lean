import Tempr.Services.SchemaDelta

/-!
# Exact differences

A fingerprint list whose keys are different stands for a map from keys to
versions. A delta lists exactly in what the two maps differ, each key once and
sorted, so that it says nothing of the order of the lists, nor of the order in
which a hash map gives the keys that are left.
-/

namespace Tempr.Services.SchemaService

open Tempr.Support

/-! ## Sorted keys -/

instance : Std.Total byKindThenId := by
  refine ⟨fun a b => ?_⟩
  simp only [byKindThenId]
  omega

instance : IsTrans Key byKindThenId := by
  refine ⟨fun a b c => ?_⟩
  simp only [byKindThenId]
  omega

theorem discriminant_injective :
    Function.Injective SchemaObjectKind.discriminant := by
  intro a b h
  cases a <;> cases b <;> first | rfl | cases h

theorem eq_of_byKindThenId {a b : Key} (hab : byKindThenId a b)
    (hba : byKindThenId b a) : a = b := by
  simp only [byKindThenId] at hab hba
  refine Prod.ext (discriminant_injective ?_) ?_
  · omega
  · omega

/-- There is one sorted list of the elements of a set. -/
theorem eq_of_sorted {l l' : List Key} (hl : l.Pairwise byKindThenId)
    (hl' : l'.Pairwise byKindThenId) (hnodup : l.Nodup) (hnodup' : l'.Nodup)
    (hmem : ∀ k, k ∈ l ↔ k ∈ l') : l = l' := by
  apply List.Perm.eq_of_pairwise _ hl hl'
  · exact (List.perm_ext_iff_of_nodup hnodup hnodup').mpr hmem
  · exact fun a b _ _ hab hba => eq_of_byKindThenId hab hba

/-! ## The loop -/

section Loop

variable {before : HashMap Key Nat} {done : List SchemaFingerprint}
  {found : HashMap Key Nat × List Key × List Key} {f : SchemaFingerprint}

/-- A step lists at most the key that is swept, in one of the two lists. -/
theorem diffStep_lists (found : HashMap Key Nat × List Key × List Key)
    (f : SchemaFingerprint) :
    ((diffStep found f).2.1 = found.2.1 ∨
      (diffStep found f).2.1 = found.2.1 ++ [sweptKey f]) ∧
    ((diffStep found f).2.2 = found.2.2 ∨
      (diffStep found f).2.2 = found.2.2 ++ [sweptKey f]) := by
  cases hlookup : found.1.lookup (sweptKey f) with
  | none =>
    rw [diffStep_of_unknown hlookup]
    exact ⟨Or.inr rfl, Or.inl rfl⟩
  | some version =>
    rw [diffStep_of_known hlookup]
    split
    · exact ⟨Or.inl rfl, Or.inl rfl⟩
    · exact ⟨Or.inl rfl, Or.inr rfl⟩

theorem Found.step_nodup (h : Found before done found)
    (hnodup : found.2.1.Nodup ∧ found.2.2.Nodup)
    (hnew : sweptKey f ∉ done.map sweptKey) :
    (diffStep found f).2.1.Nodup ∧ (diffStep found f).2.2.Nodup := by
  have hadded : sweptKey f ∉ found.2.1 := fun hmem =>
    hnew ((h.added _).mp hmem).1
  have hchanged : sweptKey f ∉ found.2.2 := by
    intro hmem
    obtain ⟨g, hg, hkey, -⟩ := (h.changed _).mp hmem
    exact hnew (hkey ▸ List.mem_map_of_mem hg)
  obtain ⟨hfirst, hsecond⟩ := diffStep_lists found f
  constructor
  · rcases hfirst with heq | heq
    · exact heq ▸ hnodup.1
    · rw [heq, ← List.concat_eq_append]
      exact hnodup.1.concat hadded
  · rcases hsecond with heq | heq
    · exact heq ▸ hnodup.2
    · rw [heq, ← List.concat_eq_append]
      exact hnodup.2.concat hchanged

/-- The whole loop lists no key twice. -/
theorem foldl_diffStep_nodup (before : HashMap Key Nat)
    {swept : List SchemaFingerprint} (hswept : (swept.map sweptKey).Nodup) :
    (swept.foldl diffStep (before, [], [])).2.1.Nodup ∧
      (swept.foldl diffStep (before, [], [])).2.2.Nodup := by
  induction swept using List.reverseRecOn with
  | nil => exact ⟨List.nodup_nil, List.nodup_nil⟩
  | append_singleton swept f ih =>
    rw [List.map_append, List.nodup_append] at hswept
    rw [List.foldl_append]
    apply (found_foldl before hswept.1).step_nodup (ih hswept.1)
    intro hmem
    exact hswept.2.2 _ hmem _ (by simp) rfl

end Loop

/-! ## Differences of maps -/

/-- The key and version of a fingerprint. -/
def sweptEntry (f : SchemaFingerprint) : Key × Nat :=
  (sweptKey f, f.version)

/-- The delta lists in what the two maps differ. -/
structure IsDifference (before after : List (Key × Nat))
    (delta : SchemaDelta) : Prop where
  added : ∀ k, k ∈ delta.added ↔
    k ∈ after.map Prod.fst ∧ k ∉ before.map Prod.fst
  changed : ∀ k, k ∈ delta.changed ↔
    ∃ v v', (k, v) ∈ before ∧ (k, v') ∈ after ∧ v ≠ v'
  dropped : ∀ k, k ∈ delta.dropped ↔
    k ∈ before.map Prod.fst ∧ k ∉ after.map Prod.fst
  nodup : delta.added.Nodup ∧ delta.changed.Nodup ∧ delta.dropped.Nodup
  sorted : delta.added.Pairwise byKindThenId ∧
    delta.changed.Pairwise byKindThenId ∧ delta.dropped.Pairwise byKindThenId

section Maps

variable {before after : List (Key × Nat)} {delta delta' : SchemaDelta}

theorem IsDifference.disjoint (h : IsDifference before after delta) :
    delta.added.Disjoint delta.changed ∧ delta.added.Disjoint delta.dropped ∧
      delta.changed.Disjoint delta.dropped := by
  refine ⟨?_, ?_, ?_⟩
  · intro k hadded hchanged
    obtain ⟨v, v', hv, -, -⟩ := (h.changed k).mp hchanged
    exact ((h.added k).mp hadded).2 (List.mem_map_of_mem hv)
  · intro k hadded hdropped
    exact ((h.added k).mp hadded).2 ((h.dropped k).mp hdropped).1
  · intro k hchanged hdropped
    obtain ⟨v, v', -, hv', -⟩ := (h.changed k).mp hchanged
    exact ((h.dropped k).mp hdropped).2 (List.mem_map_of_mem hv')

/-- Lists that stand for the same maps have one difference. -/
theorem IsDifference.eq {before' after' : List (Key × Nat)}
    (h : IsDifference before after delta)
    (h' : IsDifference before' after' delta')
    (hbefore : ∀ e, e ∈ before ↔ e ∈ before')
    (hafter : ∀ e, e ∈ after ↔ e ∈ after') : delta = delta' := by
  have hkeys : ∀ {l l' : List (Key × Nat)}, (∀ e, e ∈ l ↔ e ∈ l') →
      ∀ k, k ∈ l.map Prod.fst ↔ k ∈ l'.map Prod.fst := by
    intro l l' hsame k
    simp only [List.mem_map, hsame]
  have hadded : delta.added = delta'.added := by
    apply eq_of_sorted h.sorted.1 h'.sorted.1 h.nodup.1 h'.nodup.1
    intro k
    rw [h.added, h'.added, hkeys hbefore, hkeys hafter]
  have hchanged : delta.changed = delta'.changed := by
    apply eq_of_sorted h.sorted.2.1 h'.sorted.2.1 h.nodup.2.1 h'.nodup.2.1
    intro k
    rw [h.changed, h'.changed]
    simp only [hbefore, hafter]
  have hdropped : delta.dropped = delta'.dropped := by
    apply eq_of_sorted h.sorted.2.2 h'.sorted.2.2 h.nodup.2.2 h'.nodup.2.2
    intro k
    rw [h.dropped, h'.dropped, hkeys hbefore, hkeys hafter]
  cases delta
  cases delta'
  simp_all only

/-- The delta is empty when the lists stand for the same map. -/
theorem IsDifference.isEmpty_iff (h : IsDifference before after delta)
    (hafter : (after.map Prod.fst).Nodup) :
    delta.isEmpty = true ↔ ∀ e, e ∈ before ↔ e ∈ after := by
  simp only [SchemaDelta.isEmpty, Bool.and_eq_true, List.isEmpty_iff,
    List.eq_nil_iff_forall_not_mem, h.added, h.changed, h.dropped]
  constructor
  · rintro ⟨⟨hadded, hchanged⟩, hdropped⟩ ⟨k, v⟩
    constructor
    · intro hv
      have hkey : k ∈ after.map Prod.fst := by
        by_contra hout
        exact hdropped k ⟨List.mem_map_of_mem hv, hout⟩
      obtain ⟨⟨k, v'⟩, hv', rfl⟩ := List.mem_map.mp hkey
      have hsame : v = v' := by
        by_contra hne
        exact hchanged k ⟨v, v', hv, hv', hne⟩
      exact hsame ▸ hv'
    · intro hv'
      have hkey : k ∈ before.map Prod.fst := by
        by_contra hout
        exact hadded k ⟨List.mem_map_of_mem hv', hout⟩
      obtain ⟨⟨k, v₀⟩, hv, rfl⟩ := List.mem_map.mp hkey
      have hsame : v₀ = v := by
        by_contra hne
        exact hchanged k ⟨v₀, v, hv, hv', hne⟩
      exact hsame ▸ hv
  · intro hsame
    refine ⟨⟨fun k hk => ?_, fun k hk => ?_⟩, fun k hk => ?_⟩
    · obtain ⟨e, he, rfl⟩ := List.mem_map.mp hk.1
      exact hk.2 (List.mem_map_of_mem ((hsame e).mpr he))
    · obtain ⟨v, v', hv, hv', hne⟩ := hk
      have heq := List.inj_on_of_nodup_map hafter ((hsame _).mp hv) hv' rfl
      exact hne (congrArg Prod.snd heq)
    · obtain ⟨e, he, rfl⟩ := List.mem_map.mp hk.1
      exact hk.2 (List.mem_map_of_mem ((hsame e).mp he))

end Maps

/-! ## The difference of two fingerprint lists -/

/-- The order in which a hash map gives its keys. -/
structure KeyOrder where
  list : List Key → List Key
  perm : ∀ keys, (list keys).Perm keys

/-- `diffFingerprints` where the map gives its keys in some order. -/
def diffFingerprintsIn (order : KeyOrder) (cached : List SchemaFingerprintRecord)
    (swept : List SchemaFingerprint) : SchemaDelta :=
  let before : HashMap (SchemaObjectKind × Nat) Nat :=
    HashMap.collect (cached.map fun f => ((f.kind, f.nativeId), f.version))
  let found := swept.foldl diffStep (before, [], [])
  { added := found.2.1.insertionSort byKindThenId
    changed := found.2.2.insertionSort byKindThenId
    dropped := (order.list found.1.keys).insertionSort byKindThenId }

section Lists

variable {cached cached' : List SchemaFingerprintRecord}
  {swept swept' : List SchemaFingerprint}

/-- Sorting forgets the order of the map. -/
theorem diffFingerprintsIn_eq (order : KeyOrder) :
    diffFingerprintsIn order cached swept = diffFingerprints cached swept := by
  rw [diffFingerprintsIn, diffFingerprints]
  congr 1
  apply List.Perm.eq_of_pairwise (fun a b _ _ => eq_of_byKindThenId)
    (List.pairwise_insertionSort _ _) (List.pairwise_insertionSort _ _)
  exact ((List.perm_insertionSort _ _).trans (order.perm _)).trans
    (List.perm_insertionSort _ _).symm

theorem sweptKey_nodup
    (hswept : (swept.map fun f => (f.kind, f.nativeId)).Nodup) :
    (swept.map sweptKey).Nodup := by
  have hinj : Function.Injective (Prod.map domainKind (id : Nat → Nat)) := by
    apply Function.Injective.prodMap _ Function.injective_id
    intro a b h
    cases a <;> cases b <;> first | rfl | cases h
  have hkeys : swept.map sweptKey =
      (swept.map fun f => (f.kind, f.nativeId)).map
        (Prod.map domainKind id) := by
    rw [List.map_map]
    rfl
  rw [hkeys]
  exact hswept.map hinj

theorem oneVersion_of_nodup
    (hcached : (cached.map fun f => (f.kind, f.nativeId)).Nodup) :
    OneVersion cached := by
  intro k v v' hv hv'
  obtain ⟨f, hf, heq⟩ := List.mem_map.mp hv
  obtain ⟨f', hf', heq'⟩ := List.mem_map.mp hv'
  obtain ⟨hkey, rfl⟩ := Prod.mk.inj heq
  obtain ⟨hkey', rfl⟩ := Prod.mk.inj heq'
  rw [List.inj_on_of_nodup_map hcached hf hf' (hkey.trans hkey'.symm)]

theorem isDifference_diffFingerprints
    (hcached : (cached.map fun f => (f.kind, f.nativeId)).Nodup)
    (hswept : (swept.map fun f => (f.kind, f.nativeId)).Nodup) :
    IsDifference (cached.map recordEntry) (swept.map sweptEntry)
      (diffFingerprints cached swept) := by
  have hone := oneVersion_of_nodup hcached
  have hkeys := sweptKey_nodup hswept
  have hafter : (swept.map sweptEntry).map Prod.fst = swept.map sweptKey := by
    rw [List.map_map]
    rfl
  have hcachedKey : ∀ k, k ∈ (cached.map recordEntry).map Prod.fst ↔
      ∃ v, (k, v) ∈ cached.map recordEntry := by
    intro k
    rw [List.mem_map]
    constructor
    · rintro ⟨⟨k, v⟩, hv, rfl⟩
      exact ⟨v, hv⟩
    · rintro ⟨v, hv⟩
      exact ⟨(k, v), hv, rfl⟩
  have hnodup := foldl_diffStep_nodup (HashMap.collect
    (cached.map fun f => ((f.kind, f.nativeId), f.version))) hkeys
  constructor
  · intro k
    rw [mem_added_iff hkeys, hafter, hcachedKey, not_exists]
  · intro k
    rw [mem_changed_iff hone hkeys]
    constructor
    · rintro ⟨f, hf, rfl, v, hv, hne⟩
      exact ⟨v, f.version, hv, List.mem_map.mpr ⟨f, hf, rfl⟩, hne⟩
    · rintro ⟨v, v', hv, hv', hne⟩
      obtain ⟨f, hf, heq⟩ := List.mem_map.mp hv'
      obtain ⟨rfl, rfl⟩ := Prod.mk.inj heq
      exact ⟨f, hf, rfl, v, hv, hne⟩
  · intro k
    rw [mem_dropped_iff hone hkeys, hafter, hcachedKey]
  · refine ⟨?_, ?_, ?_⟩
    · exact (List.perm_insertionSort _ _).nodup_iff.mpr hnodup.1
    · exact (List.perm_insertionSort _ _).nodup_iff.mpr hnodup.2
    · exact (List.perm_insertionSort _ _).nodup_iff.mpr (AList.keys_nodup _)
  · exact ⟨List.pairwise_insertionSort _ _, List.pairwise_insertionSort _ _,
      List.pairwise_insertionSort _ _⟩

/-- The delta is the exact difference of the two maps, its lists are disjoint,
it is empty when the maps are the same, and neither the order of the lists nor
that of a hash map matters. -/
theorem diffFingerprints_exact
    (hcached : (cached.map fun f => (f.kind, f.nativeId)).Nodup)
    (hswept : (swept.map fun f => (f.kind, f.nativeId)).Nodup) :
    IsDifference (cached.map recordEntry) (swept.map sweptEntry)
        (diffFingerprints cached swept) ∧
      ((diffFingerprints cached swept).added.Disjoint
          (diffFingerprints cached swept).changed ∧
        (diffFingerprints cached swept).added.Disjoint
          (diffFingerprints cached swept).dropped ∧
        (diffFingerprints cached swept).changed.Disjoint
          (diffFingerprints cached swept).dropped) ∧
      ((diffFingerprints cached swept).isEmpty = true ↔
        ∀ e, e ∈ cached.map recordEntry ↔ e ∈ swept.map sweptEntry) ∧
      ∀ (order : KeyOrder) (cached' : List SchemaFingerprintRecord)
        (swept' : List SchemaFingerprint), cached'.Perm cached →
        swept'.Perm swept →
          diffFingerprintsIn order cached' swept' =
            diffFingerprints cached swept := by
  have hdifference := isDifference_diffFingerprints hcached hswept
  have hafter : ((swept.map sweptEntry).map Prod.fst).Nodup := by
    rw [List.map_map]
    exact sweptKey_nodup hswept
  refine ⟨hdifference, hdifference.disjoint,
    hdifference.isEmpty_iff hafter, ?_⟩
  intro order cached' swept' hcachedPerm hsweptPerm
  rw [diffFingerprintsIn_eq]
  have hdifference' := isDifference_diffFingerprints
    ((hcachedPerm.map _).nodup_iff.mpr hcached)
    ((hsweptPerm.map _).nodup_iff.mpr hswept)
  exact hdifference'.eq hdifference
    (fun e => (hcachedPerm.map recordEntry).mem_iff)
    (fun e => (hsweptPerm.map sweptEntry).mem_iff)

theorem diffFingerprints_exact_moved :
    (diffFingerprints [⟨.table, 1, 10⟩, ⟨.table, 2, 20⟩, ⟨.column, 100, 30⟩]
        [⟨1, .relation, 10⟩, ⟨2, .relation, 21⟩, ⟨3, .relation, 40⟩]) =
      ⟨[(.table, 3)], [(.table, 2)], [(.column, 100)]⟩ ∧
    IsDifference
      ([⟨.table, 1, 10⟩, ⟨.table, 2, 20⟩, ⟨.column, 100, 30⟩].map recordEntry)
      ([⟨1, .relation, 10⟩, ⟨2, .relation, 21⟩, ⟨3, .relation, 40⟩].map
        sweptEntry)
      (diffFingerprints
        [⟨.table, 1, 10⟩, ⟨.table, 2, 20⟩, ⟨.column, 100, 30⟩]
        [⟨1, .relation, 10⟩, ⟨2, .relation, 21⟩, ⟨3, .relation, 40⟩]) :=
  ⟨by decide, (diffFingerprints_exact (by decide) (by decide)).1⟩

end Lists

end Tempr.Services.SchemaService
