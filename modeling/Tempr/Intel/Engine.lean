import Tempr.Intel.Resolve

/-!
# The semantic engine

The engine holds one catalog and caches the latest analysis of each file with
its revision and the catalog it was made against. Catalogs are shared: they are
named by their addresses, and two are the same if their addresses are.
-/

namespace Tempr.Intel

open Tempr.Support Tempr.Services

/-- A file, named by the text of its uuid. -/
structure SqlFileId where
  text : String
  deriving DecidableEq, Repr

/-- The address of a catalog. -/
abbrev CatalogAddress := ℕ

structure CachedAnalysis where
  revision : ℕ
  catalog : CatalogAddress
  analysis : Analysis

structure SemanticEngine where
  catalog : CatalogAddress
  analyses : HashMap SqlFileId CachedAnalysis

/-- Beyond this many cached analyses the engine removes one. -/
def analysisCacheMax : ℕ := 64

section Analyze

variable {Id : Type} [Unicode] [DecidableEq Id]

/-- The analysis of a text under a catalog. The parser may not have made a tree
of the text. -/
def analysisOf (parse : Text → Option Node) (text : Text)
    (catalog : CatalogCache Id) : Analysis :=
  match parse text with
  | some root => Walker.analyzeNow ⟨text, catalog⟩ root
  | none => .empty

end Analyze

namespace SemanticEngine

/-- What the cache holds for a revision of a file under a catalog. -/
def lookup (engine : SemanticEngine) (file : SqlFileId) (revision : ℕ)
    (catalog : CatalogAddress) : Option Analysis :=
  ((engine.analyses.lookup file).filter fun cached =>
    decide (cached.revision = revision ∧ cached.catalog = catalog)).map
      CachedAnalysis.analysis

/-- Insert an analysis. A full cache first removes the entry that it lists
first, which may be any: `oldest`. -/
def insert (engine : SemanticEngine) (oldest file : SqlFileId)
    (cached : CachedAnalysis) : SemanticEngine :=
  let analyses :=
    if analysisCacheMax ≤ engine.analyses.entries.length then
      engine.analyses.erase oldest
    else engine.analyses
  { engine with analyses := analyses.insert file cached }

/-- Whether `oldest` may be the entry that the cache lists first. -/
def mayRemove (engine : SemanticEngine) (oldest : SqlFileId) : Bool :=
  decide (engine.analyses.entries.length < analysisCacheMax)
    || (engine.analyses.lookup oldest).isSome

theorem lookup_eq_some {engine : SemanticEngine} {file : SqlFileId}
    {revision : ℕ} {catalog : CatalogAddress} {analysis : Analysis}
    (h : engine.lookup file revision catalog = some analysis) :
    engine.analyses.lookup file = some ⟨revision, catalog, analysis⟩ := by
  obtain ⟨⟨revision', catalog', analysis'⟩, hfilter, rfl⟩ :=
    Option.map_eq_some_iff.1 h
  obtain ⟨hlookup, hmatches⟩ := Option.filter_eq_some_iff.1 hfilter
  obtain ⟨rfl, rfl⟩ := of_decide_eq_true hmatches
  exact hlookup

/-- What the cache holds after an insertion it held before, or has been
inserted. -/
theorem lookup_insert {engine : SemanticEngine} {oldest file file' : SqlFileId}
    {cached cached' : CachedAnalysis}
    (h : (engine.insert oldest file cached).analyses.lookup file'
      = some cached') :
    file' = file ∧ cached' = cached ∨
      engine.analyses.lookup file' = some cached' := by
  by_cases hfile : file' = file
  · subst hfile
    rw [insert, AList.lookup_insert] at h
    exact .inl ⟨rfl, (Option.some.inj h).symm⟩
  · rw [insert, AList.lookup_insert_ne hfile] at h
    right
    split at h
    · by_cases hold : file' = oldest
      · subst hold
        rw [AList.lookup_erase] at h
        cases h
      · rwa [AList.lookup_erase_ne hold] at h
    · exact h

/-- A cache within its bound stays within it when an entry is inserted. -/
theorem length_insert_le {engine : SemanticEngine} {oldest : SqlFileId}
    (hoff : engine.mayRemove oldest = true)
    (h : engine.analyses.entries.length ≤ analysisCacheMax) (file : SqlFileId)
    (cached : CachedAnalysis) :
    (engine.insert oldest file cached).analyses.entries.length ≤
      analysisCacheMax := by
  have hinsert : ∀ analyses : HashMap SqlFileId CachedAnalysis,
      (analyses.insert file cached).entries.length ≤
        analyses.entries.length + 1 := by
    intro analyses
    rw [AList.entries_insert, List.length_cons]
    exact Nat.succ_le_succ (List.kerase_sublist file _).length_le
  rw [insert]
  refine (hinsert _).trans ?_
  split
  · next hfull =>
      have hmem : oldest ∈ engine.analyses.keys := by
        rw [mayRemove, Bool.or_eq_true] at hoff
        rcases hoff with hfree | hsome
        · exact absurd (of_decide_eq_true hfree) (Nat.not_lt.2 hfull)
        · exact AList.lookup_isSome.1 hsome
      have hkeys : ∀ analyses : HashMap SqlFileId CachedAnalysis,
          analyses.entries.length = analyses.keys.length :=
        fun analyses => (List.length_map _).symm
      have hpos : 0 < engine.analyses.keys.length :=
        List.length_pos_of_mem hmem
      rw [hkeys, AList.keys_erase, List.length_erase_of_mem hmem,
        Nat.sub_add_cancel hpos, ← hkeys]
      exact h
  · omega

end SemanticEngine

end Tempr.Intel
