import Tempr.Intel.CatalogArena
import Tempr.Intel.Completion
import Tempr.Support.SortedScan

/-!
# Relations among the candidates

The names of the relations and of the functions are in one sorted list, and a
search stops after a fixed number of names, whatever they name. Which relations
are offered depends on how many names come before theirs.
-/

namespace Tempr.Intel

open Tempr.Support Tempr.Support.SortedScan Tempr.Services

/-! ## The order of names -/

variable {Id : Type}

/-- Is the name of the entry searched for prefixes? -/
def CatalogEntry.isNamed : CatalogEntry Id → Bool
  | .table _ _ _ _ => true
  | .view _ _ _ _ => true
  | .function _ _ _ _ _ _ => true
  | _ => false

/-- By the name, and of equal names by the place. -/
def PlaceLt (a b : Text × ℕ) : Prop :=
  a.1 < b.1 ∨ a.1 = b.1 ∧ a.2 < b.2

instance : DecidableRel PlaceLt :=
  fun _ _ => inferInstanceAs (Decidable (_ ∨ _))

/-- The order of the names. -/
def PlaceLe (a b : Text × ℕ) : Prop :=
  a.1 < b.1 ∨ a.1 = b.1 ∧ a.2 ≤ b.2

instance : DecidableRel PlaceLe :=
  fun _ _ => inferInstanceAs (Decidable (_ ∨ _))

instance : Std.Total PlaceLe := by
  refine ⟨fun a b => ?_⟩
  rcases lt_trichotomy a.1 b.1 with h | h | h
  · exact Or.inl (Or.inl h)
  · rcases Nat.le_total a.2 b.2 with hle | hle
    · exact Or.inl (Or.inr ⟨h, hle⟩)
    · exact Or.inr (Or.inr ⟨h.symm, hle⟩)
  · exact Or.inr (Or.inl h)

instance : IsTrans (Text × ℕ) PlaceLe := by
  refine ⟨fun a b c hab hbc => ?_⟩
  rcases hab with hab | ⟨hab, hle⟩
  · rcases hbc with hbc | ⟨hbc, -⟩
    · exact Or.inl (hab.trans hbc)
    · exact Or.inl (hbc ▸ hab)
  · rcases hbc with hbc | ⟨hbc, hle'⟩
    · exact Or.inl (hab ▸ hbc)
    · exact Or.inr ⟨hab.trans hbc, hle.trans hle'⟩

theorem PlaceLt.le {a b : Text × ℕ} (h : PlaceLt a b) : PlaceLe a b :=
  h.imp_right fun ⟨heq, hlt⟩ => ⟨heq, hlt.le⟩

theorem placeLe_antisymm {a b : Text × ℕ} (hab : PlaceLe a b)
    (hba : PlaceLe b a) : a = b := by
  rcases hab with hab | ⟨heq, hab⟩
  · rcases hba with hba | ⟨heq, -⟩
    · exact absurd hba (lt_asymm hab)
    · exact absurd heq hab.ne'
  · rcases hba with hba | ⟨-, hba⟩
    · exact absurd heq hba.ne'
    · exact Prod.ext heq (le_antisymm hab hba)

theorem placeLt_asymm (a b : Text × ℕ) (hab : PlaceLt a b) :
    ¬ PlaceLt b a := by
  rintro (hba | ⟨heq, hba⟩)
  · rcases hab with hab | ⟨heq, -⟩
    · exact lt_asymm hab hba
    · exact hba.ne' heq
  · rcases hab with hab | ⟨-, hab⟩
    · exact hab.ne' heq
    · omega

/-- The folded name of an entry with its place. -/
def foldedPlace [Unicode] (p : CatalogEntry Id × ℕ) : Text × ℕ :=
  (toLowercase p.1.name, p.2)

namespace CatalogCache

/-- How many names of relations and functions that begin with the folded prefix
come before the name of the entry at the place. -/
def namesBefore [Unicode] (catalog : CatalogCache Id) (typed : Text) (place : ℕ)
    (entry : CatalogEntry Id) : ℕ :=
  catalog.objects.zipIdx.countP fun p =>
    p.1.isNamed && (toLowercase typed).isPrefixOf (toLowercase p.1.name)
      && decide (PlaceLt (foldedPlace p) (foldedPlace (entry, place)))

/-! ## The sorted names -/

section Names

variable {snapshot : SchemaSnapshot Id}

theorem isNamed_of_relationsOf {e : CatalogEntry Id}
    (he : e ∈ relationsOf snapshot ++ functionsOf snapshot) :
    e.isNamed = true := by
  rcases List.mem_append.mp he with he | he
  · obtain ⟨o, -, ho⟩ := List.mem_filterMap.mp he
    cases o <;> simp only [relationEntry, reduceCtorEq, Option.some.injEq] at ho
      <;> subst ho <;> rfl
  · obtain ⟨o, -, ho⟩ := List.mem_filterMap.mp he
    cases o <;> simp only [functionEntry, reduceCtorEq, Option.some.injEq] at ho
    subst ho
    rfl

variable [DecidableEq Id]

theorem isNamed_columnEntry {parents : HashMap Id ℕ} {relation : ℕ}
    {o : SchemaObject Id} {p : ℕ × CatalogEntry Id}
    (h : columnEntry parents relation o = some p) : p.2.isNamed = false := by
  cases o <;> simp only [columnEntry, reduceCtorEq] at h
  split at h
  · cases h
    rfl
  · cases h

theorem isNamed_indexEntry {parents : HashMap Id ℕ} {relation : ℕ}
    {o : SchemaObject Id} {e : CatalogEntry Id}
    (h : indexEntry parents relation o = some e) : e.isNamed = false := by
  cases o <;> simp only [indexEntry, reduceCtorEq] at h
  split at h
  · cases h
    rfl
  · cases h

theorem isNamed_of_parts {e : CatalogEntry Id}
    (he : e ∈ (columnsPart snapshot).flatten ++
      (indexesPart snapshot).flatten) : e.isNamed = false := by
  simp only [List.mem_append, columnsPart, indexesPart, List.mem_flatten,
    List.mem_map] at he
  rcases he with ⟨_, ⟨relation, -, rfl⟩, he⟩ | ⟨_, ⟨relation, -, rfl⟩, he⟩
  · simp only [columnBucket, List.mem_map, List.mem_insertionSort,
      List.mem_filterMap] at he
    obtain ⟨p, ⟨o, -, hp⟩, rfl⟩ := he
    exact isNamed_columnEntry hp
  · obtain ⟨o, -, ho⟩ := List.mem_filterMap.mp he
    exact isNamed_indexEntry ho

variable [Unicode]

/-- Only the relations and functions, with which the arena begins, have a name
that is searched. -/
theorem named_fromSnapshot :
    (fromSnapshot snapshot).objects.zipIdx.filter (·.1.isNamed) =
      (relationsOf snapshot ++ functionsOf snapshot).zipIdx := by
  change (arena snapshot).zipIdx.filter _ = _
  rw [arena, List.append_assoc, List.zipIdx_append, List.filter_append]
  have hnamed : (relationsOf snapshot ++ functionsOf snapshot).zipIdx.filter
      (·.1.isNamed) = (relationsOf snapshot ++ functionsOf snapshot).zipIdx := by
    rw [List.filter_eq_self]
    intro p hp
    exact isNamed_of_relationsOf (List.fst_mem_of_mem_zipIdx hp)
  have hrest : ∀ k, (((columnsPart snapshot).flatten ++
      (indexesPart snapshot).flatten).zipIdx k).filter (·.1.isNamed) = [] := by
    intro k
    rw [List.filter_eq_nil_iff]
    intro p hp
    rw [isNamed_of_parts (List.fst_mem_of_mem_zipIdx hp)]
    exact Bool.false_ne_true
  rw [hnamed, hrest, List.append_nil]

theorem nameOrder_perm :
    (fromSnapshot snapshot).nameOrder.Perm
      (((fromSnapshot snapshot).objects.zipIdx.filter (·.1.isNamed)).map
        foldedPlace) := by
  rw [named_fromSnapshot]
  exact List.perm_insertionSort _ _

theorem nameOrder_places :
    ((fromSnapshot snapshot).nameOrder.map Prod.snd).Nodup := by
  rw [(nameOrder_perm.map Prod.snd).nodup_iff, named_fromSnapshot,
    List.map_map]
  have hsnd : (Prod.snd ∘ foldedPlace : CatalogEntry Id × ℕ → ℕ) =
      Prod.snd := rfl
  rw [hsnd, List.zipIdx_map_snd]
  exact List.nodup_range'

/-- The names are sorted, and no place occurs twice. -/
theorem nameOrder_pairwise :
    (fromSnapshot snapshot).nameOrder.Pairwise PlaceLt := by
  have hsorted : (fromSnapshot snapshot).nameOrder.Pairwise PlaceLe :=
    List.pairwise_insertionSort PlaceLe _
  refine (hsorted.and (List.pairwise_map.mp nameOrder_places)).imp ?_
  rintro a b ⟨hab | ⟨heq, hle⟩, hne⟩
  · exact Or.inl hab
  · exact Or.inr ⟨heq, lt_of_le_of_ne hle hne⟩

theorem mem_nameOrder {name : Text} {i : ℕ} :
    (name, i) ∈ (fromSnapshot snapshot).nameOrder ↔
      ∃ e, (fromSnapshot snapshot).object i = some e ∧ e.isNamed ∧
        toLowercase e.name = name := by
  rw [nameOrder_perm.mem_iff, List.mem_map]
  constructor
  · rintro ⟨⟨e, j⟩, hmem, heq⟩
    obtain ⟨hmem, hnamed⟩ := List.mem_filter.mp hmem
    simp only [foldedPlace, Prod.mk.injEq] at heq
    obtain ⟨hname, rfl⟩ := heq
    exact ⟨e, List.mem_zipIdx_iff_getElem?.mp hmem, hnamed, hname⟩
  · rintro ⟨e, he, hnamed, rfl⟩
    exact ⟨(e, i), List.mem_filter.mpr
      ⟨List.mem_zipIdx_iff_getElem?.mpr he, hnamed⟩, rfl⟩

/-- What is below a text comes first among the names. -/
theorem nameOrder_below (folded : Text) :
    (fromSnapshot snapshot).nameOrder.Pairwise fun a b =>
      decide (b.1 < folded) → decide (a.1 < folded) := by
  refine nameOrder_pairwise.imp fun {a b} hab hb => ?_
  rw [decide_eq_true_eq] at hb ⊢
  rcases hab with hab | ⟨hab, -⟩
  · exact hab.trans hb
  · exact hab ▸ hb

/-- The search finds the names with the prefix, up to the cap. -/
theorem prefixSearch_eq (typed : Text) (cap : ℕ) :
    (fromSnapshot snapshot).prefixSearch typed cap =
      ((((fromSnapshot snapshot).nameOrder.filter fun p =>
        (toLowercase typed).isPrefixOf p.1).take cap).map Prod.snd,
      decide (cap < ((fromSnapshot snapshot).nameOrder.filter fun p =>
        (toLowercase typed).isPrefixOf p.1).length)) := by
  have hfound : ((fromSnapshot snapshot).nameOrder.dropWhile fun p =>
        decide (p.1 < toLowercase typed)).takeWhile (fun p =>
          (toLowercase typed).isPrefixOf p.1) =
      (fromSnapshot snapshot).nameOrder.filter fun p =>
        (toLowercase typed).isPrefixOf p.1 := by
    apply scan_eq_filter
    · intro p _ hp
      rw [decide_eq_true_eq]
      exact not_lt_of_prefix (List.isPrefixOf_iff_prefix.mp hp)
    · exact nameOrder_below _
    · refine nameOrder_pairwise.imp fun {a b} hab ha hb => ?_
      rw [decide_eq_true_eq] at ha
      rw [List.isPrefixOf_iff_prefix] at hb ⊢
      exact prefix_of_between ha (hab.imp_right And.left) hb
  simp only [prefixSearch, hfound]

theorem countP_nameOrder (typed : Text) (i : ℕ) (e : CatalogEntry Id) :
    ((fromSnapshot snapshot).nameOrder.filter fun p =>
        (toLowercase typed).isPrefixOf p.1).countP
        (fun p => PlaceLt p (foldedPlace (e, i))) =
      (fromSnapshot snapshot).namesBefore typed i e := by
  rw [List.countP_filter, nameOrder_perm.countP_eq, List.countP_map,
    List.countP_filter, namesBefore]
  refine List.countP_congr fun p _ => ?_
  simp only [Function.comp_apply, foldedPlace, Bool.and_eq_true]
  tauto

/-- A name with the prefix is found when few names with the prefix come before
it. -/
theorem mem_prefixSearch_iff (typed : Text) (cap i : ℕ) :
    i ∈ ((fromSnapshot snapshot).prefixSearch typed cap).1 ↔
      ∃ e, (fromSnapshot snapshot).object i = some e ∧ e.isNamed ∧
        toLowercase typed <+: toLowercase e.name ∧
        (fromSnapshot snapshot).namesBefore typed i e < cap := by
  rw [prefixSearch_eq, List.mem_map]
  have hsorted : ((fromSnapshot snapshot).nameOrder.filter fun p =>
      (toLowercase typed).isPrefixOf p.1).Pairwise PlaceLt :=
    nameOrder_pairwise.filter _
  constructor
  · rintro ⟨⟨name, j⟩, hmem, rfl⟩
    have hfound := List.mem_of_mem_take hmem
    obtain ⟨hname, hstarts⟩ := List.mem_filter.mp hfound
    obtain ⟨e, he, hnamed, rfl⟩ := mem_nameOrder.mp hname
    refine ⟨e, he, hnamed, List.isPrefixOf_iff_prefix.mp hstarts, ?_⟩
    rw [← countP_nameOrder]
    exact (mem_take_iff placeLt_asymm hsorted hfound cap).mp hmem
  · rintro ⟨e, he, hnamed, hstarts, hbefore⟩
    have hfound : foldedPlace (e, i) ∈
        (fromSnapshot snapshot).nameOrder.filter fun p =>
          (toLowercase typed).isPrefixOf p.1 :=
      List.mem_filter.mpr ⟨mem_nameOrder.mpr ⟨e, he, hnamed, rfl⟩,
        List.isPrefixOf_iff_prefix.mpr hstarts⟩
    rw [← countP_nameOrder] at hbefore
    exact ⟨_, (mem_take_iff placeLt_asymm hsorted hfound cap).mpr hbefore, rfl⟩

end Names

/-- How many names of relations and functions begin with the folded prefix. -/
def namesWith [Unicode] (catalog : CatalogCache Id) (typed : Text) : ℕ :=
  catalog.objects.countP fun e =>
    e.isNamed && (toLowercase typed).isPrefixOf (toLowercase e.name)

/-- A name does not come before itself. -/
theorem namesBefore_lt_namesWith [Unicode] {catalog : CatalogCache Id}
    {typed : Text} {i : ℕ} {e : CatalogEntry Id}
    (he : catalog.object i = some e) (hnamed : e.isNamed = true)
    (hstarts : toLowercase typed <+: toLowercase e.name) :
    catalog.namesBefore typed i e < catalog.namesWith typed := by
  have hmem : (e, i) ∈ catalog.objects.zipIdx :=
    List.mem_zipIdx_iff_getElem?.mpr he
  have hwith : catalog.namesWith typed =
      (catalog.objects.zipIdx.filter fun p => p.1.isNamed &&
        (toLowercase typed).isPrefixOf (toLowercase p.1.name)).length := by
    rw [← List.countP_eq_length_filter, namesWith]
    conv_lhs => rw [← List.zipIdx_map_fst 0 catalog.objects, List.countP_map]
    rfl
  have hbefore : catalog.namesBefore typed i e =
      (catalog.objects.zipIdx.filter fun p => p.1.isNamed &&
        (toLowercase typed).isPrefixOf (toLowercase p.1.name)).countP
        fun p => PlaceLt (foldedPlace p) (foldedPlace (e, i)) := by
    rw [List.countP_filter, namesBefore]
    exact List.countP_congr fun p _ => by rw [Bool.and_comm]
  rw [hwith, hbefore, List.countP_lt_length_iff]
  refine ⟨(e, i), List.mem_filter.mpr
    ⟨hmem, by simpa [hnamed, List.isPrefixOf_iff_prefix] using hstarts⟩, ?_⟩
  rw [decide_eq_false_iff_not]
  exact fun h => placeLt_asymm _ _ h h

end CatalogCache

open CatalogCache

section Offered

theorem isNamed_of_relationCandidate {weight : ℤ} {e : CatalogEntry Id}
    {c : Candidate} (hc : relationCandidate weight e = some c) :
    e.isNamed = true := by
  cases e <;> simp only [relationCandidate, reduceCtorEq] at hc <;> rfl

/-- The label of the candidate is the relation's name. -/
theorem relationCandidate_label {weight : ℤ} {e : CatalogEntry Id}
    {c : Candidate} (hc : relationCandidate weight e = some c) :
    c.label = e.name ∧ c.kind = .table := by
  cases e <;> simp only [relationCandidate, reduceCtorEq, Option.some.injEq] at hc
    <;> subst hc <;> exact ⟨rfl, rfl⟩

variable [DecidableEq Id] [Unicode] {snapshot : SchemaSnapshot Id}

theorem mem_relationCandidates_iff {typed : Text} {weight : ℤ} {c : Candidate} :
    c ∈ relationCandidates (fromSnapshot snapshot) typed weight ↔
      ∃ i e, (fromSnapshot snapshot).object i = some e ∧
        relationCandidate weight e = some c ∧
        toLowercase typed <+: toLowercase e.name ∧
        (fromSnapshot snapshot).namesBefore typed i e < prefixScanCap := by
  rw [relationCandidates, List.mem_filterMap]
  constructor
  · rintro ⟨i, hi, hc⟩
    obtain ⟨e, he, -, hstarts, hbefore⟩ := (mem_prefixSearch_iff _ _ _).mp hi
    rw [he, Option.bind_some] at hc
    exact ⟨i, e, he, hc, hstarts, hbefore⟩
  · rintro ⟨i, e, he, hc, hstarts, hbefore⟩
    refine ⟨i, (mem_prefixSearch_iff _ _ _).mpr
      ⟨e, he, isNamed_of_relationCandidate hc, hstarts, hbefore⟩, ?_⟩
    rw [he, Option.bind_some, hc]

variable [CharTables]

/-- Where a relation is expected, the tables among the candidates are those of
the search. -/
theorem mem_generate_relation_iff {frames : List Frame} {cursor : CursorContext}
    (hcursor : cursor.context = .relation) {c : Candidate}
    (hkind : c.kind = .table) :
    c ∈ generate (fromSnapshot snapshot) frames cursor ↔
      c ∈ relationCandidates (fromSnapshot snapshot) cursor.typed
        weightRelation := by
  rw [generate]
  split
  · -- an empty catalog
    rename_i hempty
    constructor
    · intro hmem
      obtain ⟨keyword, -, rfl⟩ := List.mem_map.mp hmem
      simp [keywordCandidate] at hkind
    · intro hmem
      obtain ⟨i, e, he, -⟩ := mem_relationCandidates_iff.mp hmem
      rw [isEmpty, List.isEmpty_iff] at hempty
      simp [object, hempty] at he
  · simp only [hcursor, List.mem_append]
    constructor
    · rintro ((hmem | hmem) | hmem)
      · obtain ⟨cte, -, hc⟩ := List.mem_filterMap.mp hmem
        obtain ⟨name, -, rfl⟩ := Option.map_eq_some_iff.mp hc
        simp at hkind
      · exact hmem
      · obtain ⟨schema, -, rfl⟩ := List.mem_map.mp hmem
        simp at hkind
    · exact fun hmem => Or.inl (Or.inr hmem)

/-- Where a relation is expected, a relation whose name begins with what has
been typed is offered just when fewer than 200 names of relations and functions
that begin so come before its name, or before that of a relation of the same
kind, schema and name. It is offered whenever no more than 200 names begin so. -/
theorem relationOffered_iff (frames : List Frame) {cursor : CursorContext}
    (hcursor : cursor.context = .relation) {i : ℕ} {e : CatalogEntry Id}
    (he : (fromSnapshot snapshot).object i = some e) {c : Candidate}
    (hc : relationCandidate weightRelation e = some c)
    (hstarts : toLowercase cursor.typed <+: toLowercase e.name) :
    (c ∈ generate (fromSnapshot snapshot) frames cursor ↔
      ∃ j e', (fromSnapshot snapshot).object j = some e' ∧
        relationCandidate weightRelation e' = some c ∧
        (fromSnapshot snapshot).namesBefore cursor.typed j e' < 200) ∧
      ((fromSnapshot snapshot).namesWith cursor.typed ≤ 200 →
        c ∈ generate (fromSnapshot snapshot) frames cursor) := by
  have hoffered : c ∈ generate (fromSnapshot snapshot) frames cursor ↔
      ∃ j e', (fromSnapshot snapshot).object j = some e' ∧
        relationCandidate weightRelation e' = some c ∧
        (fromSnapshot snapshot).namesBefore cursor.typed j e' < 200 := by
    rw [mem_generate_relation_iff hcursor (relationCandidate_label hc).2,
      mem_relationCandidates_iff]
    constructor
    · rintro ⟨j, e', he', hc', -, hbefore⟩
      exact ⟨j, e', he', hc', hbefore⟩
    · rintro ⟨j, e', he', hc', hbefore⟩
      refine ⟨j, e', he', hc', ?_, hbefore⟩
      rwa [← (relationCandidate_label hc').1, (relationCandidate_label hc).1]
  refine ⟨hoffered, fun hfew => hoffered.mpr ⟨i, e, he, hc, ?_⟩⟩
  exact (namesBefore_lt_namesWith he (isNamed_of_relationCandidate hc)
    hstarts).trans_le hfew

end Offered

section Sample

local instance asciiRelations : Unicode := Unicode.ascii

local instance charsRelations : CharTables := CharTables.ascii

/-- A table, and functions of one name that comes before the table's. -/
def overloadedSnapshot (overloads : ℕ) : SchemaSnapshot ℕ where
  id := ⟨"s"⟩
  connectionId := ⟨"c"⟩
  version := 1
  objects := .table 0 "public" "users" none ::
    (List.range overloads).map fun k =>
      .function (k + 1) "public" "age" [("arg", Nat.repr k)] "integer" "sql"
  keywords := []
  fingerprints := []

/-- The cursor after `FROM `. -/
def fromCursor : CursorContext where
  context := .relation
  word := ⟨14, 14⟩
  typed := []

theorem relationOffered_iff_few :
    let e : CatalogEntry ℕ := .table 0 "public".toList "users".toList none
    let c : Candidate := ⟨"users".toList, "users".toList, .table,
      "table · public".toList, 450⟩
    (fromSnapshot (overloadedSnapshot 2)).object 0 = some e ∧
      relationCandidate weightRelation e = some c ∧
      c ∈ generate (fromSnapshot (overloadedSnapshot 2)) [] fromCursor := by
  have he : (fromSnapshot (overloadedSnapshot 2)).object 0 =
      some (.table 0 "public".toList "users".toList none) := by decide +kernel
  have hc : relationCandidate weightRelation
      (.table 0 "public".toList "users".toList none : CatalogEntry ℕ) =
      some ⟨"users".toList, "users".toList, .table, "table · public".toList,
        450⟩ := by decide +kernel
  have hcursor : fromCursor.context = .relation := rfl
  have hoffered := relationOffered_iff [] hcursor he hc (by decide)
  exact ⟨he, hc, hoffered.2 (by decide +kernel)⟩

/-- With 200 functions before it, the only relation is not offered. -/
theorem relation_crowded_out :
    let catalog := fromSnapshot (overloadedSnapshot 200)
    let e : CatalogEntry ℕ := .table 0 "public".toList "users".toList none
    (catalog.objects.countP fun o => o.isRelation &&
        (toLowercase fromCursor.typed).isPrefixOf (toLowercase o.name)) ≤ 200 ∧
      catalog.object 0 = some e ∧
      toLowercase fromCursor.typed <+: toLowercase e.name ∧
      ∀ c, relationCandidate weightRelation e = some c →
        c ∉ generate catalog [] fromCursor := by
  refine ⟨by decide +kernel, by decide +kernel, by decide, ?_⟩
  rintro c hc hmem
  rw [mem_generate_relation_iff rfl (relationCandidate_label hc).2] at hmem
  have hnone : relationCandidates (fromSnapshot (overloadedSnapshot 200))
      fromCursor.typed weightRelation = [] := by decide +kernel
  rw [hnone] at hmem
  exact List.not_mem_nil hmem

end Sample

end Tempr.Intel
