import Mathlib.Data.List.Dedup
import Tempr.Intel.Completion

/-!
# The reference ranking

What the ranking is for, without a hash map and a heap: of the scored candidates
the best of each label and kind, sorted by score and label, and of these the
first ones. Where candidates of one label and different kinds have different
weights, the ranking is this list, whatever order the hash map and the candidates
come in.
-/

namespace Tempr.Intel

open Tempr.Support
open Tempr.Editor (ByteRange)

/-- What is shown of an item in its place: its label, its kind and its score. -/
structure Rated where
  label : Text
  kind : CompletionKind
  score : ℤ
  deriving DecidableEq, Repr

namespace Rated

/-- The higher score comes first, and of equal scores the smaller label. -/
def Precedes (a b : Rated) : Prop :=
  b.score < a.score ∨ b.score = a.score ∧ a.label ≤ b.label

instance : DecidableRel Precedes :=
  fun _ _ => inferInstanceAs (Decidable (_ ∨ _))

end Rated

def Ranked.rated (ranked : Ranked) : Rated where
  label := ranked.label
  kind := ranked.candidate.kind
  score := ranked.score

def CompletionItem.rated (item : CompletionItem) : Rated where
  label := item.label
  kind := item.kind
  score := item.score

/-- The best of each label and kind: no other one of the label and kind has a
higher score. -/
def bestRated (all : List Rated) : List Rated :=
  all.dedup.filter fun a =>
    decide (∀ b ∈ all, b.label = a.label → b.kind = a.kind →
      b.score ≤ a.score)

theorem mem_bestRated {all : List Rated} {a : Rated} :
    a ∈ bestRated all ↔ a ∈ all ∧
      ∀ b ∈ all, b.label = a.label → b.kind = a.kind → b.score ≤ a.score := by
  rw [bestRated, List.mem_filter, List.mem_dedup, decide_eq_true_eq]

section Reference

variable [CharTables] [Unicode]

/-- All matching candidates with their scores. -/
def ratedCandidates (candidates : List Candidate) (typed : Text) : List Rated :=
  (candidates.filterMap (scored typed)).map Ranked.rated

def referenceRank (candidates : List Candidate) (typed : Text) : List Rated :=
  ((bestRated (ratedCandidates candidates typed)).insertionSort
    Rated.Precedes).take completionLimit

end Reference

/-! ## What the hash map holds -/

section Map

/-- What the map holds after the values: of each label and kind one value with
the best score. -/
structure HoldsBest (values : List Ranked)
    (best : HashMap (Text × CompletionKind) Ranked) : Prop where
  found : ∀ ranked ∈ values,
    (best.lookup (ranked.label, ranked.candidate.kind)).isSome
  best : ∀ key ranked, best.lookup key = some ranked →
    ranked ∈ values ∧ key = (ranked.label, ranked.candidate.kind) ∧
      ∀ other ∈ values, (other.label, other.candidate.kind) = key →
        other.score ≤ ranked.score

variable {values : List Ranked}
  {best : HashMap (Text × CompletionKind) Ranked}

theorem holdsBest_nil : HoldsBest [] ∅ := by
  constructor
  · intro ranked hmem
    cases hmem
  · intro key ranked hlookup
    cases hlookup

/-- The map after a value has replaced the one of its label and kind. -/
theorem HoldsBest.insert (h : HoldsBest values best) (ranked : Ranked)
    (hbetter : ∀ old,
      best.lookup (ranked.label, ranked.candidate.kind) = some old →
        old.score ≤ ranked.score) :
    HoldsBest (values ++ [ranked])
      (best.insert (ranked.label, ranked.candidate.kind) ranked) := by
  constructor
  · intro other hmem
    by_cases hkey : (other.label, other.candidate.kind) =
        (ranked.label, ranked.candidate.kind)
    · rw [hkey, AList.lookup_insert]
      rfl
    · rw [AList.lookup_insert_ne hkey]
      rcases List.mem_append.mp hmem with hmem | hmem
      · exact h.found other hmem
      · exact absurd (by rw [List.mem_singleton.mp hmem]) hkey
  · intro key found hlookup
    by_cases hkey : key = (ranked.label, ranked.candidate.kind)
    · subst hkey
      rw [AList.lookup_insert, Option.some.injEq] at hlookup
      subst hlookup
      refine ⟨by simp, rfl, fun other hmem hsame => ?_⟩
      rcases List.mem_append.mp hmem with hmem | hmem
      · obtain ⟨old, hold⟩ := Option.isSome_iff_exists.mp (h.found other hmem)
        have hle := (h.best _ old hold).2.2 other hmem rfl
        rw [hsame] at hold
        exact hle.trans (hbetter old hold)
      · rw [List.mem_singleton.mp hmem]
    · rw [AList.lookup_insert_ne hkey] at hlookup
      obtain ⟨hmem, hown, hmax⟩ := h.best key found hlookup
      refine ⟨List.mem_append_left _ hmem, hown, fun other hother hsame => ?_⟩
      rcases List.mem_append.mp hother with hother | hother
      · exact hmax other hother hsame
      · rw [List.mem_singleton.mp hother] at hsame
        exact absurd hsame.symm hkey

theorem HoldsBest.keep (h : HoldsBest values best) {ranked old : Ranked}
    (hold : best.lookup (ranked.label, ranked.candidate.kind) = some old)
    (hworse : ranked.score ≤ old.score) :
    HoldsBest (values ++ [ranked]) best := by
  constructor
  · intro other hmem
    rcases List.mem_append.mp hmem with hmem | hmem
    · exact h.found other hmem
    · rw [List.mem_singleton.mp hmem, hold]
      rfl
  · intro key found hlookup
    obtain ⟨hmem, hown, hmax⟩ := h.best key found hlookup
    refine ⟨List.mem_append_left _ hmem, hown, fun other hother hsame => ?_⟩
    rcases List.mem_append.mp hother with hother | hother
    · exact hmax other hother hsame
    · rw [List.mem_singleton.mp hother] at hsame ⊢
      rw [← hsame, hold, Option.some.injEq] at hlookup
      exact hlookup ▸ hworse

/-- One step of the loop over the candidates. -/
theorem HoldsBest.step (h : HoldsBest values best) (ranked : Ranked) :
    HoldsBest (values ++ [ranked]) (insertBest best ranked) := by
  rw [insertBest]
  cases hold : best.lookup (ranked.label, ranked.candidate.kind) with
  | none =>
    apply h.insert
    rw [hold]
    exact fun old hnone => by cases hnone
  | some old =>
    by_cases hbetter : old.score < ranked.score
    · simp only [if_pos hbetter]
      apply h.insert
      rw [hold]
      rintro _ ⟨⟩
      exact hbetter.le
    · simp only [if_neg hbetter]
      exact h.keep hold (not_lt.mp hbetter)

/-- The whole loop. -/
theorem holdsBest_foldl (values : List Ranked) :
    HoldsBest values (values.foldl insertBest ∅) := by
  induction values using List.reverseRecOn with
  | nil => exact holdsBest_nil
  | append_singleton values ranked ih =>
    rw [List.foldl_append]
    exact ih.step ranked

end Map

/-! ## The ranking -/

instance : Std.Total Rated.Precedes := by
  refine ⟨fun a b => ?_⟩
  rcases lt_trichotomy a.score b.score with h | h | h
  · exact Or.inr (Or.inl h)
  · rcases le_total a.label b.label with hle | hle
    · exact Or.inl (Or.inr ⟨h.symm, hle⟩)
    · exact Or.inr (Or.inr ⟨h, hle⟩)
  · exact Or.inl (Or.inl h)

instance : IsTrans Rated Rated.Precedes := by
  refine ⟨fun a b c hab hbc => ?_⟩
  rcases hab with hab | ⟨heq, hab⟩
  · rcases hbc with hbc | ⟨heq', -⟩
    · exact Or.inl (hbc.trans hab)
    · exact Or.inl (heq' ▸ hab)
  · rcases hbc with hbc | ⟨heq', hbc⟩
    · exact Or.inl (heq ▸ hbc)
    · exact Or.inr ⟨heq'.trans heq, hab.trans hbc⟩

theorem nodup_bestRated (all : List Rated) : (bestRated all).Nodup :=
  (List.nodup_dedup all).filter _

theorem atLeast_iff_precedes (x y : Ranked) :
    TopN.AtLeast Ranked.key x y ↔ x.rated.Precedes y.rated := by
  rw [TopN.AtLeast, Ranked.key, Ranked.key, Prod.Lex.toLex_le_toLex]
  exact Iff.rfl

/-- No two of the rated candidates have the same score and label. -/
def Distinguished (all : List Rated) : Prop :=
  ∀ a ∈ all, ∀ b ∈ all, a.label = b.label → a.score = b.score → a = b

/-- There is one way to sort what the scores and labels tell apart. -/
theorem insertionSort_eq_of_mem_iff {all l l' : List Rated}
    (hall : Distinguished all) (hsub : ∀ a ∈ l, a ∈ all) (hl : l.Nodup)
    (hl' : l'.Nodup) (hmem : ∀ a, a ∈ l ↔ a ∈ l') :
    l.insertionSort Rated.Precedes = l'.insertionSort Rated.Precedes := by
  have hperm : l.Perm l' := (List.perm_ext_iff_of_nodup hl hl').mpr hmem
  apply List.Perm.eq_of_pairwise _ (List.pairwise_insertionSort _ _)
    (List.pairwise_insertionSort _ _)
  · exact (List.perm_insertionSort _ _).trans
      (hperm.trans (List.perm_insertionSort _ _).symm)
  · intro a b ha hb hab hba
    rw [List.mem_insertionSort] at ha hb
    have hscore : a.score = b.score := by
      rcases hab with hab | ⟨heq, -⟩
      · rcases hba with hba | ⟨heq', -⟩
        · exact absurd hba (lt_asymm hab)
        · exact heq'
      · exact heq.symm
    have hlabel : a.label = b.label := by
      rcases hab with hab | ⟨-, hab⟩
      · exact absurd hscore hab.ne'
      · rcases hba with hba | ⟨-, hba⟩
        · exact absurd hscore hba.ne
        · exact le_antisymm hab hba
    exact hall a (hsub a ha) b (hsub b ((hmem b).mpr hb)) hlabel hscore

section Rank

variable [CharTables] [Unicode] {candidates : List Candidate} {typed : Text}

theorem distinguished_ratedCandidates (typed : Text)
    (h : ∀ a ∈ candidates, ∀ b ∈ candidates, a.label = b.label →
      a.kind ≠ b.kind → a.weight ≠ b.weight) :
    Distinguished (ratedCandidates candidates typed) := by
  intro x hx y hy hlabel hscore
  obtain ⟨x, hxmem, rfl⟩ := List.mem_map.mp hx
  obtain ⟨y, hymem, rfl⟩ := List.mem_map.mp hy
  obtain ⟨a, ha, hax⟩ := List.mem_filterMap.mp hxmem
  obtain ⟨b, hb, hby⟩ := List.mem_filterMap.mp hymem
  obtain ⟨rfl, rfl, hweight⟩ := weight_eq_of_scored hax hby hlabel hscore
  have hkind : x.candidate.kind = y.candidate.kind := by
    by_contra hne
    exact h _ ha _ hb hlabel hne hweight
  exact Rated.mk.injEq .. ▸ ⟨hlabel, hkind, hscore⟩

/-- The map holds the best of each label and kind. -/
theorem mem_rated_bestOf {a : Rated} :
    a ∈ ((bestOf candidates typed).entries.map Sigma.snd).map Ranked.rated ↔
      a ∈ bestRated (ratedCandidates candidates typed) := by
  have hholds := holdsBest_foldl (candidates.filterMap (scored typed))
  rw [mem_bestRated]
  constructor
  · intro ha
    obtain ⟨ranked, hmem, rfl⟩ := List.mem_map.mp ha
    obtain ⟨⟨key, ranked⟩, hentry, rfl⟩ := List.mem_map.mp hmem
    obtain ⟨hranked, hkey, hmax⟩ :=
      hholds.best key ranked (AList.mem_lookup_iff.mpr hentry)
    refine ⟨List.mem_map_of_mem hranked, fun b hb hlabel hkind => ?_⟩
    obtain ⟨other, hother, rfl⟩ := List.mem_map.mp hb
    exact hmax other hother (hkey ▸ Prod.ext hlabel hkind)
  · rintro ⟨ha, hmax⟩
    obtain ⟨ranked, hranked, rfl⟩ := List.mem_map.mp ha
    obtain ⟨found, hfound⟩ :=
      Option.isSome_iff_exists.mp (hholds.found ranked hranked)
    obtain ⟨hmem, hkey, hbest⟩ := hholds.best _ found hfound
    obtain ⟨hlabel, hkind⟩ := Prod.mk.inj hkey
    have hscore : found.score = ranked.score := by
      apply le_antisymm
      · exact hmax _ (List.mem_map_of_mem hmem) hlabel.symm hkind.symm
      · exact hbest ranked hranked rfl
    refine List.mem_map.mpr ⟨found, List.mem_map.mpr
      ⟨⟨_, found⟩, AList.mem_lookup_iff.mp hfound, rfl⟩, ?_⟩
    exact Rated.mk.injEq .. ▸ ⟨hlabel.symm, hkind.symm, hscore⟩

theorem nodup_rated_bestOf :
    (((bestOf candidates typed).entries.map Sigma.snd).map
      Ranked.rated).Nodup := by
  apply List.Nodup.of_map fun a : Rated => (a.label, a.kind)
  have hkeys : (((bestOf candidates typed).entries.map Sigma.snd).map
      Ranked.rated).map (fun a : Rated => (a.label, a.kind)) =
        (bestOf candidates typed).keys := by
    rw [List.map_map, List.map_map]
    apply List.map_congr_left
    intro entry hentry
    exact (mem_bestOf hentry).2.symm
  rw [hkeys]
  exact AList.keys_nodup _

/-- With labels, kinds and scores the ranking is the reference ranking. -/
theorem rated_rank_eq
    (h : ∀ a ∈ candidates, ∀ b ∈ candidates, a.label = b.label →
      a.kind ≠ b.kind → a.weight ≠ b.weight)
    (replace : ByteRange) (order : HashOrder) :
    (rank order candidates typed replace).map CompletionItem.rated =
      referenceRank candidates typed := by
  set values := (bestOf candidates typed).entries.map Sigma.snd with hvalues
  have hkeys : ((order.list values).map Ranked.key).Nodup := by
    rw [((order.perm values).map Ranked.key).nodup_iff]
    apply nodup_keys_bestOf
    intro a ha b hb hlabel hweight
    by_contra hkind
    exact h a ha b hb hlabel hkind hweight
  have hitem : CompletionItem.rated ∘ Ranked.item replace = Ranked.rated := rfl
  have hmap : (TopN.sorted Ranked.key (order.list values)).map Ranked.rated =
      ((order.list values).map Ranked.rated).insertionSort Rated.Precedes :=
    List.map_insertionSort _ _ _ _ fun x _ y _ => atLeast_iff_precedes x y
  have hperm : ((order.list values).map Ranked.rated).Perm
      (values.map Ranked.rated) := (order.perm values).map _
  rw [rank, ← hvalues, TopN.sorted_keep_eq _ hkeys, List.map_map, hitem,
    List.map_take, hmap, referenceRank]
  congr 1
  refine insertionSort_eq_of_mem_iff
    (distinguished_ratedCandidates typed h) ?_
    (hperm.nodup_iff.mpr nodup_rated_bestOf) (nodup_bestRated _) ?_
  · intro a ha
    exact (mem_bestRated.mp (mem_rated_bestOf.mp (hperm.mem_iff.mp ha))).1
  · intro a
    exact hperm.mem_iff.trans mem_rated_bestOf

theorem referenceRank_of_perm {candidates' : List Candidate}
    (h : ∀ a ∈ candidates, ∀ b ∈ candidates, a.label = b.label →
      a.kind ≠ b.kind → a.weight ≠ b.weight)
    (hperm : candidates'.Perm candidates) :
    referenceRank candidates' typed = referenceRank candidates typed := by
  have hmem : ∀ a, a ∈ ratedCandidates candidates' typed ↔
      a ∈ ratedCandidates candidates typed :=
    fun a => ((hperm.filterMap _).map Ranked.rated).mem_iff
  have hbest : ∀ a, a ∈ bestRated (ratedCandidates candidates' typed) ↔
      a ∈ bestRated (ratedCandidates candidates typed) := by
    intro a
    simp only [mem_bestRated, hmem]
  rw [referenceRank, referenceRank]
  congr 1
  refine insertionSort_eq_of_mem_iff
    (distinguished_ratedCandidates typed h) ?_
    (nodup_bestRated _) (nodup_bestRated _) hbest
  exact fun a ha => (mem_bestRated.mp ((hbest a).mp ha)).1

/-- The ranking is the reference ranking, in whatever order the hash map lists
its values, and its items are the same; with their labels, kinds and scores they
are the same for the candidates in any order. -/
theorem rank_eq_reference
    (h : ∀ a ∈ candidates, ∀ b ∈ candidates, a.label = b.label →
      a.kind ≠ b.kind → a.weight ≠ b.weight)
    (replace : ByteRange) (order : HashOrder) :
    (rank order candidates typed replace).map CompletionItem.rated =
        referenceRank candidates typed ∧
      (∀ order' : HashOrder, rank order' candidates typed replace =
        rank order candidates typed replace) ∧
      ∀ (candidates' : List Candidate) (order' : HashOrder),
        candidates'.Perm candidates →
          (rank order' candidates' typed replace).map CompletionItem.rated =
            (rank order candidates typed replace).map CompletionItem.rated := by
  refine ⟨rated_rank_eq h replace order, fun order' => ?_, ?_⟩
  · apply rank_eq_rank
    intro a ha b hb hlabel hweight
    by_contra hkind
    exact h a ha b hb hlabel hkind hweight
  · intro candidates' order' hperm
    have h' : ∀ a ∈ candidates', ∀ b ∈ candidates', a.label = b.label →
        a.kind ≠ b.kind → a.weight ≠ b.weight := fun a ha b hb =>
      h a (hperm.mem_iff.mp ha) b (hperm.mem_iff.mp hb)
    rw [rated_rank_eq h' replace order', rated_rank_eq h replace order,
      referenceRank_of_perm h hperm]

end Rank

section Sample

local instance asciiRanking : Unicode := Unicode.ascii

local instance charsRanking : CharTables := CharTables.ascii

/-- A hash map that lists its values as they were inserted. -/
def insertionOrder : HashOrder where
  list values := values
  perm _ := List.Perm.refl _

/-- A table twice, with different weights, and a function of its name. -/
def agedCandidates : List Candidate :=
  [⟨"age".toList, "age".toList, .table, [], 250⟩,
    ⟨"age".toList, "age".toList, .function, [], 300⟩,
    ⟨"age".toList, "age".toList, .table, [], 450⟩]

theorem rank_eq_reference_aged :
    (rank insertionOrder agedCandidates "ag".toList ⟨0, 2⟩).map
        CompletionItem.rated =
      referenceRank agedCandidates "ag".toList ∧
    referenceRank agedCandidates "ag".toList =
      [⟨"age".toList, .table, 451597⟩, ⟨"age".toList, .function, 301597⟩] :=
  ⟨(rank_eq_reference (by decide) ⟨0, 2⟩ insertionOrder).1, by decide +kernel⟩

end Sample

end Tempr.Intel
