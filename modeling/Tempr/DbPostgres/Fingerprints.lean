import Tempr.DbPostgres.Placeholders
import Tempr.Services.SchemaCatalog

/-!
# The fingerprint query

The driver reads the fingerprints of all objects in a scope with one query: the
union of a segment for each kind of object, each restricted to the scope by a
clause with placeholders of its own.
-/

namespace Tempr.DbPostgres

open Tempr.Services (SchemaScope)

/-! ## The query -/

/-- The condition that restricts a query to a scope, and the values to bind.
The rows of `pg_namespace` and `pg_class` are called `ns` and `rel` there. -/
def scopeClause (scope : SchemaScope) (ns rel : Sql) : Sql × List String :=
  match scope with
  | .searchPath =>
      ("(".toList ++ ns ++
        ".nspname = ANY (current_schemas(false)) OR ".toList ++ ns ++
        ".nspname = 'public')".toList, [])
  | .all =>
      (ns ++ ".nspname NOT IN ('pg_catalog', 'information_schema')".toList, [])
  | .schema s => (ns ++ ".nspname = $1".toList, [s])
  | .table schema table =>
      (ns ++ ".nspname = $1 AND ".toList ++ rel ++ ".relname = $2".toList,
        [schema, table])

/-- The clause for functions, which belong to a schema and to no table. -/
def functionScopeClause (scope : SchemaScope) (ns : Sql) : Sql × List String :=
  match scope with
  | .searchPath =>
      ("(".toList ++ ns ++
        ".nspname = ANY (current_schemas(false)) OR ".toList ++ ns ++
        ".nspname = 'public')".toList, [])
  | .all =>
      (ns ++ ".nspname NOT IN ('pg_catalog', 'information_schema')".toList, [])
  | .schema s => (ns ++ ".nspname = $1".toList, [s])
  | .table schema _ => (ns ++ ".nspname = $1".toList, [schema])

def relationSelect : Sql :=
  "SELECT c.oid::int8, 0::int2, c.xmin::text::int8 ".toList ++
    "FROM pg_class c ".toList ++
    "JOIN pg_namespace n ON n.oid = c.relnamespace ".toList ++
    "WHERE c.relkind IN ('r', 'p', 'v', 'm', 'f') ".toList ++ "AND ".toList

def columnSelect : Sql :=
  "SELECT (a.attrelid::int8 << 16) | a.attnum::int8, ".toList ++
    "1::int2, a.xmin::text::int8 ".toList ++
    "FROM pg_attribute a ".toList ++
    "JOIN pg_class c ON c.oid = a.attrelid ".toList ++
    "JOIN pg_namespace n ON n.oid = c.relnamespace ".toList ++
    "WHERE a.attnum > 0 AND NOT a.attisdropped ".toList ++
    "AND c.relkind IN ('r', 'p', 'v', 'm', 'f') ".toList ++ "AND ".toList

def indexSelect : Sql :=
  "SELECT i.oid::int8, 2::int2, i.xmin::text::int8 ".toList ++
    "FROM pg_class i ".toList ++
    "JOIN pg_index ix ON ix.indexrelid = i.oid ".toList ++
    "JOIN pg_class t ON t.oid = ix.indrelid ".toList ++
    "JOIN pg_namespace n ON n.oid = t.relnamespace ".toList ++
    "WHERE i.relkind IN ('i', 'I') ".toList ++ "AND ".toList

def functionSelect : Sql :=
  "SELECT p.oid::int8, 3::int2, p.xmin::text::int8 ".toList ++
    "FROM pg_proc p ".toList ++
    "JOIN pg_namespace n ON n.oid = p.pronamespace ".toList ++
    "WHERE p.prokind = 'f' ".toList ++ "AND ".toList

/-- The segments of the query, each with the values it binds. -/
def fingerprintSegments (scope : SchemaScope) : List (Sql × List String) :=
  let (relationWhere, relationBinds) :=
    scopeClause scope "n".toList "c".toList
  let (indexWhere, indexBinds) := scopeClause scope "n".toList "t".toList
  let (functionWhere, functionBinds) := functionScopeClause scope "n".toList
  [(relationSelect ++ relationWhere, relationBinds),
    (columnSelect ++ relationWhere, relationBinds),
    (indexSelect ++ indexWhere, indexBinds),
    (functionSelect ++ functionWhere, functionBinds)]

/-- The query that `schema_fingerprints` sends, with its binds. -/
def fingerprintQuery (scope : SchemaScope) : Option (Sql × List String) := do
  let segments := fingerprintSegments scope
  let sql := unionAll.intercalate (segments.map Prod.fst)
  let bindsPerSegment := segments.map fun segment => segment.2.length
  let allBinds := segments.flatMap Prod.snd
  return (← renumberUnionSegments sql bindsPerSegment, allBinds)

/-! ## Its placeholders -/

/-- A part of the query that numbers the values it binds from one, and has none
of the letter that the separator of a union begins with. -/
def NumbersOwn (part : Sql × List String) : Prop :=
  UsesOnly part.2.length part.1 ∧ 'U' ∉ part.1

theorem NumbersOwn.select {select : Sql} {clause : Sql × List String}
    (hselect : '$' ∉ select ∧ 'U' ∉ select) (h : NumbersOwn clause) :
    NumbersOwn (select ++ clause.1, clause.2) := by
  obtain ⟨huses, hletter⟩ := h
  refine ⟨?_, ?_⟩
  · rw [UsesOnly, pieces_plain hselect.1, List.forall_mem_append]
    refine ⟨fun piece hpiece => ?_, huses⟩
    obtain ⟨c, -, rfl⟩ := List.mem_map.mp hpiece
    trivial
  · rw [List.mem_append, not_or]
    exact ⟨hselect.2, hletter⟩

theorem NumbersOwn.noUnion {part : Sql × List String} (h : NumbersOwn part) :
    ¬"UNION ALL".toList <:+: part.1 := fun hwithin =>
  h.2 (hwithin.subset (by decide))

theorem scopeClause_numbersOwn (scope : SchemaScope) :
    NumbersOwn (scopeClause scope "n".toList "c".toList) ∧
      NumbersOwn (scopeClause scope "n".toList "t".toList) ∧
      NumbersOwn (functionScopeClause scope "n".toList) := by
  cases scope with
  | searchPath =>
      simp only [NumbersOwn, scopeClause, functionScopeClause]
      decide
  | all =>
      simp only [NumbersOwn, scopeClause, functionScopeClause]
      decide
  | schema s =>
      simp only [NumbersOwn, scopeClause, functionScopeClause,
        List.length_cons]
      decide
  | table schema table =>
      simp only [NumbersOwn, scopeClause, functionScopeClause,
        List.length_cons]
      decide

theorem fingerprintSegments_numbersOwn (scope : SchemaScope) :
    ∀ segment ∈ fingerprintSegments scope, NumbersOwn segment := by
  obtain ⟨hrelation, hindex, hfunction⟩ := scopeClause_numbersOwn scope
  simp only [fingerprintSegments, List.forall_mem_cons, List.not_mem_nil,
    false_implies, implies_true, and_true]
  exact ⟨hrelation.select (by decide +kernel),
    hrelation.select (by decide +kernel), hindex.select (by decide +kernel),
    hfunction.select (by decide +kernel)⟩

/-- A segment leaves none of its placeholders without a value. -/
theorem inr_none_not_mem_meaning {β : Type*} {binds : List β} {segment : Sql}
    (h : UsesOnly binds.length segment) :
    .inr none ∉ meaning binds segment := by
  rw [meaning, List.mem_map]
  rintro ⟨piece, hpiece, hnone⟩
  have hupTo := h piece hpiece
  cases piece with
  | char c => cases hnone
  | placeholder digits =>
      obtain ⟨hone, hle, -⟩ := hupTo
      obtain ⟨j, hj⟩ := Nat.exists_eq_add_of_le' hone
      rw [resolve_placeholder hj, Sum.inr.injEq,
        List.getElem?_eq_none_iff] at hnone
      omega

theorem fingerprintSegments_binds_le (scope : SchemaScope) :
    ((fingerprintSegments scope).map fun segment => segment.2.length).sum ≤
      7 := by
  cases scope with
  | searchPath => exact Nat.zero_le 7
  | all => exact Nat.zero_le 7
  | schema s => exact (by decide : 4 ≤ 7)
  | table schema table => exact Nat.le_refl 7

/-- Whatever the scope, the fingerprint query is sent, and means with its binds
what its segments mean with their own, where every placeholder has a value. -/
theorem fingerprintQuery_meaning (scope : SchemaScope) :
    ∃ sql, fingerprintQuery scope =
        some (sql, (fingerprintSegments scope).flatMap Prod.snd) ∧
      meaning ((fingerprintSegments scope).flatMap Prod.snd) sql =
        (unionAll.map Sum.inl).intercalate
          ((fingerprintSegments scope).map fun segment =>
            meaning segment.2 segment.1) ∧
      ∀ segment ∈ fingerprintSegments scope,
        .inr none ∉ meaning segment.2 segment.1 := by
  have hown := fingerprintSegments_numbersOwn scope
  have hne : (fingerprintSegments scope).map Prod.fst ≠ [] :=
    List.cons_ne_nil _ _
  have hunion : ∀ segment ∈ (fingerprintSegments scope).map Prod.fst,
      ¬"UNION ALL".toList <:+: segment := by
    rw [List.forall_mem_map]
    exact fun segment hsegment => (hown segment hsegment).noUnion
  have huses : List.Forall₂ UsesOnly
      ((fingerprintSegments scope).map fun segment => segment.2.length)
      ((fingerprintSegments scope).map Prod.fst) := by
    rw [List.forall₂_map_left_iff, List.forall₂_map_right_iff,
      List.forall₂_same]
    exact fun segment hsegment => (hown segment hsegment).1
  have hfits := fingerprintSegments_binds_le scope
  have hrenumbered := renumberUnionSegments_eq hne hunion huses
    (hfits.trans (by decide))
  refine ⟨_, by rw [fingerprintQuery, hrenumbered]; rfl, ?_,
    fun segment hsegment => inr_none_not_mem_meaning (hown segment hsegment).1⟩
  have hlengths : ((fingerprintSegments scope).map fun segment =>
      segment.2.length) =
        ((fingerprintSegments scope).map Prod.snd).map List.length := by
    rw [List.map_map]
    rfl
  rw [hlengths] at huses ⊢
  rw [List.flatMap_def, meaning_renumbered huses, List.zipWith_map,
    List.zipWith_self]

end Tempr.DbPostgres
