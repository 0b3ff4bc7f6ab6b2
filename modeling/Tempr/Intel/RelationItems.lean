import Tempr.Intel.CatalogArena
import Tempr.Intel.Reached
import Tempr.Intel.Silence

/-!
# Relations and qualifiers by name

What the relation items of a group of clauses are, what a name in one of them
resolves to, and what a column reference with a qualifier is reported as.
-/

namespace Tempr.Intel

open Tempr.Support Tempr.Services
open Tempr.Editor (ByteRange Rope)

/-! ## Relation items -/

/-- What the collection of sources meets of relation items. -/
def relationStep (_siblings : List Node) (node : Node) : List Node × Bool :=
  if node.kind.bindsNothing then ([], false)
  else
    match node.kind with
    | .relation => ([node], false)
    | .lateralJoin => ([], false)
    | .lateralCrossJoin => ([], false)
    | _ => ([], true)

/-- The relation items of a group of clauses. -/
def Node.Group.relations (group : Node.Group) : List Node :=
  group.parts.flatMap (SpanTree.visitIn relationStep group.siblings)

namespace Walker

variable {Id : Type} [DecidableEq Id] [Unicode] {w : Walker Id}

/-- The name of a relation item, in parts. -/
def relationParts (w : Walker Id) (node : Node) : List (Text × ByteRange) :=
  ((node.direct .objectReference).getLast?.map w.identifierParts).getD []

/-- The alias of a relation item, as it is written. -/
def relationAlias (w : Walker Id) (node : Node) : Option Text :=
  w.aliasOf (node.direct .identifier).getLast?

/-- Relation items are collected as they are met. -/
theorem relationItem_of_mem_relationStep {siblings : List Node} {node n : Node}
    (h : node ∈ (relationStep siblings n).1) (ctes : List Binding)
    (outer : List Frame) :
    w.relationItem ctes outer node ∈ (w.phaseA ctes outer siblings n).1 := by
  rw [relationStep] at h
  rw [phaseA]
  split at h
  · cases h
  · rename_i hbinds
    rw [if_neg hbinds]
    split at h
    · rename_i hkind
      rw [List.mem_singleton.1 h, hkind]
      exact List.mem_singleton_self _
    all_goals cases h

/-- The collection of sources and the search for relation items go equally
far. -/
theorem phaseA_snd_eq_relationStep (ctes : List Binding) (outer : List Frame)
    (siblings : List Node) (n : Node) :
    (w.phaseA ctes outer siblings n).2 = (relationStep siblings n).2 := by
  rw [phaseA, relationStep]
  split
  · rfl
  · cases SpanTree.kind n <;> rfl

/-- Each relation item is collected. -/
theorem relationItem_mem_sources {group : Node.Group} {node : Node}
    (h : node ∈ group.relations) (ctes : List Binding) (outer : List Level) :
    w.relationItem ctes (outer.map Level.frame) node ∈
      (w.groupLevel group ctes outer).sources := by
  obtain ⟨part, hpart, hnode⟩ := List.mem_flatMap.1 h
  refine List.mem_flatMap.2 ⟨part, hpart, ?_⟩
  obtain ⟨source, hsource, hitem⟩ := SpanTree.exists_mem_visitIn
    (R := fun source => source =
      w.relationItem ctes (outer.map Level.frame) node)
    (fun siblings n hn =>
      ⟨_, relationItem_of_mem_relationStep hn ctes _, rfl⟩)
    (fun siblings n hn => (phaseA_snd_eq_relationStep ctes _ siblings n).trans hn)
    hnode
  rwa [← hitem]

/-! ## Names -/

/-- A CTE by its name, the nearest first. -/
def visibleCte (ctes : List Binding) (outer : List Frame) (name : Text) :
    Option Binding :=
  (ctes :: outer.map Frame.ctes).findSome?
    (·.find? (·.matchesQualifier name))

theorem visibleCte_eq_none_iff {ctes : List Binding} {outer : List Frame}
    {name : Text} :
    visibleCte ctes outer name = none ↔
      ¬∃ visible ∈ ctes :: outer.map Frame.ctes, ∃ cte ∈ visible,
        cte.matchesQualifier name = true := by
  rw [visibleCte, List.findSome?_eq_none_iff]
  push Not
  refine forall₂_congr fun visible _ => ?_
  rw [List.find?_eq_none]

theorem visibleCte_eq_some {ctes : List Binding} {outer : List Frame}
    {name : Text} {cte : Binding} (h : visibleCte ctes outer name = some cte) :
    (∃ visible ∈ ctes :: outer.map Frame.ctes, cte ∈ visible) ∧
      cte.matchesQualifier name = true := by
  obtain ⟨visible, hvisible, hfind⟩ := List.exists_of_findSome?_eq_some h
  refine ⟨⟨visible, hvisible, List.mem_of_find?_eq_some hfind⟩, ?_⟩
  exact List.find?_some (p := fun cte : Binding => cte.matchesQualifier name)
    hfind

omit [DecidableEq Id] in
/-- A name of one part: CTEs shadow the catalog. -/
theorem resolveRelation_named (catalog : CatalogCache Id) (name : Text)
    (ctes : List Binding) (outer : List Frame) :
    resolveRelation catalog [name] ctes outer =
      match visibleCte ctes outer name, resolveCatalogRel catalog none name with
      | some cte, _ => .cte cte
      | none, some idx => .catalog idx
      | none, none => .none := by
  rw [resolveRelation, ← visibleCte]
  cases visibleCte ctes outer name with
  | some cte => rfl
  | none => cases resolveCatalogRel catalog none name <;> rfl

section Named

variable {node : Node} {name : Text} {range : ByteRange}
  (hsub : node.direct .subquery = [])
  (hparts : w.relationParts node = [(name, range)]) (ctes : List Binding)
  (outer : List Frame)

include hsub hparts

/-- What a relation item is whose name has one part: a CTE, a relation of the
catalog, or nothing that is known. -/
theorem relationItem_named :
    w.relationItem ctes outer node =
      match visibleCte ctes outer name,
        resolveCatalogRel w.catalog none name with
      | some cte, _ =>
          ⟨some (ownCteBinding (w.relationAlias node) range cte), none⟩
      | none, some idx =>
          ⟨some (w.catalogBinding (w.relationAlias node) range idx), none⟩
      | none, none =>
          { binding := some
              { «alias» := w.relationAlias node, name := some name
                schema := none, object := none, columns := [], range }
            unresolved := some [(name, range)] } := by
  rw [relationParts] at hparts
  rw [relationItem, hsub, hparts]
  simp only [List.getLast?_nil, List.cons_ne_nil, if_false, List.map_cons,
    List.map_nil, resolveRelation_named]
  cases visibleCte ctes outer name with
  | some cte => rfl
  | none => cases resolveCatalogRel w.catalog none name <;> rfl

theorem unresolved_eq_none_iff :
    (w.relationItem ctes outer node).unresolved = none ↔
      visibleCte ctes outer name ≠ none ∨
        resolveCatalogRel w.catalog none name ≠ none := by
  rw [relationItem_named hsub hparts]
  cases visibleCte ctes outer name with
  | some cte => simp
  | none => cases resolveCatalogRel w.catalog none name <;> simp

/-- The item binds, under its alias if it has one. -/
theorem exists_binding_named
    (hctes : ∀ visible ∈ ctes :: outer.map Frame.ctes, ∀ cte ∈ visible,
      cte.alias = none)
    (hcatalog : ∀ idx, resolveCatalogRel w.catalog none name = some idx →
      ∃ e, w.catalog.object idx = some e ∧
        toLowercase e.name = toLowercase name) :
    ∃ binding, (w.relationItem ctes outer node).binding = some binding ∧
      binding.alias = w.relationAlias node ∧
      (w.relationAlias node = none → binding.matchesQualifier name = true) := by
  rw [relationItem_named hsub hparts]
  cases hcte : visibleCte ctes outer name with
  | some cte =>
      refine ⟨_, rfl, rfl, fun hnone => ?_⟩
      obtain ⟨⟨visible, hvisible, hmem⟩, hmatches⟩ := visibleCte_eq_some hcte
      rw [Binding.matchesQualifier, hctes visible hvisible cte hmem] at hmatches
      simpa [Binding.matchesQualifier, ownCteBinding, hnone] using hmatches
  | none =>
      cases hidx : resolveCatalogRel w.catalog none name with
      | some idx =>
          obtain ⟨e, he, hname⟩ := hcatalog idx hidx
          refine ⟨_, rfl, rfl, fun hnone => ?_⟩
          simp [Binding.matchesQualifier, catalogBinding, hnone, he, hname]
      | none =>
          refine ⟨_, rfl, rfl, fun hnone => ?_⟩
          simp [Binding.matchesQualifier, hnone]

end Named

/-! ## Names in the catalog of a snapshot -/

section Catalog

variable {snapshot : SchemaSnapshot Id} {name : Text} {idx : ℕ}

theorem object_of_relationFolded {schema : Text}
    (h : idx ∈ (CatalogCache.fromSnapshot snapshot).relationFolded schema name) :
    ∃ e, (CatalogCache.fromSnapshot snapshot).object idx = some e ∧
      toLowercase e.name = toLowercase name := by
  obtain ⟨e, he, hkey⟩ := CatalogCache.mem_relationFolded_iff.1 h
  exact ⟨e, CatalogCache.getElem?_arena_of_relation he, (Prod.mk.inj hkey).2⟩

theorem object_of_relationExact {schema : Text}
    (h : (CatalogCache.fromSnapshot snapshot).relationExact schema name =
      some idx) :
    ∃ e, (CatalogCache.fromSnapshot snapshot).object idx = some e ∧
      toLowercase e.name = toLowercase name := by
  obtain ⟨⟨e, i⟩, hmem, heq⟩ :=
    List.mem_map.1 (HashMap.mem_of_lookup_collect h)
  simp only [Prod.mk.injEq] at heq
  obtain ⟨⟨-, rfl⟩, rfl⟩ := heq
  exact ⟨e, CatalogCache.getElem?_arena_of_relation
    (List.mem_zipIdx_iff_getElem?.1 hmem), rfl⟩

omit [DecidableEq Id] in
theorem mem_relationFolded_of_uniqueFolded {catalog : CatalogCache Id}
    {schemas : List Text} {folded : Option ℕ}
    (h : uniqueFolded catalog name folded schemas = some idx) :
    folded = some idx ∨
      ∃ schema ∈ schemas, idx ∈ catalog.relationFolded schema name := by
  induction schemas generalizing folded with
  | nil => exact .inl h
  | cons schema schemas ih =>
      rw [uniqueFolded] at h
      split at h
      · rcases ih h with hfolded | ⟨other, hmem, hidx⟩
        · exact .inl hfolded
        · exact .inr ⟨other, List.mem_cons_of_mem _ hmem, hidx⟩
      · rename_i found hhits
        split at h
        · cases h
        · rcases ih h with hfolded | ⟨other, hmem, hidx⟩
          · refine .inr ⟨schema, List.mem_cons_self, ?_⟩
            rw [hhits, Option.some.inj hfolded]
            exact List.mem_singleton_self idx
          · exact .inr ⟨other, List.mem_cons_of_mem _ hmem, hidx⟩
      · cases h

/-- A relation of the catalog has the name that it was found by, up to case. -/
theorem object_of_resolveCatalogRel
    (h : resolveCatalogRel (.fromSnapshot snapshot) none name = some idx) :
    ∃ e, (CatalogCache.fromSnapshot snapshot).object idx = some e ∧
      toLowercase e.name = toLowercase name := by
  rw [resolveCatalogRel] at h
  split at h
  · rename_i found hexact
    obtain ⟨schema, -, hfound⟩ := List.exists_of_findSome?_eq_some hexact
    rw [← Option.some.inj h]
    exact object_of_relationExact hfound
  · rcases mem_relationFolded_of_uniqueFolded h with hnone | ⟨schema, -, hidx⟩
    · cases hnone
    · exact object_of_relationFolded hidx

end Catalog

/-! ## Reports -/

/-- A collected source is reported if its name resolves to nothing. -/
theorem bound_unknownRelation_iff (hloaded : w.loaded = true)
    (source : Source) :
    (∃ d ∈ w.diagnose (.bound source), d.kind = .unknownRelation) ↔
      source.unresolved ≠ none := by
  rw [diagnose, sourceDiagnostic]
  cases source.unresolved with
  | none => simp
  | some parts => simp [hloaded, unresolvedDiagnostic, Diagnostic.new]

/-- A source that answers the qualifier is visible in some level. -/
def Answers (levels : List Level) (qualifier : Text) : Prop :=
  ∃ level ∈ levels, ∃ binding ∈ level.ctes ++ level.frame.bindings,
    binding.matchesQualifier qualifier = true

theorem lookupQualifier_ne_none_iff {levels : List Level} {qualifier : Text} :
    lookupQualifier (levels.map Level.frame) qualifier ≠ none ↔
      Answers levels qualifier := by
  have hframe : ∀ level : Level, level.frame.qualifier qualifier ≠ none ↔
      ∃ binding ∈ level.ctes ++ level.frame.bindings,
        binding.matchesQualifier qualifier = true := by
    intro level
    rw [Frame.qualifier, ne_eq, Option.or_eq_none_iff, List.find?_eq_none,
      List.find?_eq_none, ← List.forall_mem_append]
    push Not
    rfl
  rw [lookupQualifier, ne_eq, List.findSome?_eq_none_iff]
  push Not
  simp only [List.mem_map, exists_exists_and_eq_and, hframe]
  rfl

theorem lookupQualifier_eq_some {levels : List Level} {qualifier : Text}
    {found : Binding}
    (h : lookupQualifier (levels.map Level.frame) qualifier = some found) :
    (∃ level ∈ levels, found ∈ level.ctes ++ level.frame.bindings) ∧
      found.matchesQualifier qualifier = true := by
  obtain ⟨_, hframe, hfound⟩ := List.exists_of_findSome?_eq_some h
  obtain ⟨level, hlevel, rfl⟩ := List.mem_map.1 hframe
  rw [Frame.qualifier, Option.or_eq_some_iff] at hfound
  have hmatches : ∀ {sources : List Binding},
      sources.find? (fun source => source.matchesQualifier qualifier) =
        some found → found.matchesQualifier qualifier = true := by
    intro sources hfind
    exact List.find?_some
      (p := fun source : Binding => source.matchesQualifier qualifier) hfind
  rcases hfound with hcte | ⟨-, hbinding⟩
  · exact ⟨⟨level, hlevel, List.mem_append_left _
      (List.mem_of_find?_eq_some hcte)⟩, hmatches hcte⟩
  · exact ⟨⟨level, hlevel, List.mem_append_right _
      (List.mem_of_find?_eq_some hbinding)⟩, hmatches hbinding⟩

omit [DecidableEq Id] in
theorem resolveAgainst_kind {catalog : CatalogCache Id} {binding : Binding}
    {column qualifier : Text} {range : ByteRange} {d : Diagnostic}
    (h : resolveAgainst catalog binding column range qualifier = some d) :
    d.kind = .unknownColumn ∨ d.kind = .ambiguousColumn := by
  rw [resolveAgainst] at h
  split at h
  · cases h
  · split at h <;> cases h
    · exact .inl rfl
    · exact .inr rfl

section Qualified

variable (hloaded : w.loaded = true) {field : Node} (levels : List Level)
  {qualifier column : Text} {qualifierRange columnRange : ByteRange}
  (hparts : w.identifierParts field =
    [(qualifier, qualifierRange), (column, columnRange)])

include hloaded hparts

/-- A reference with one qualifier is resolved against the source that answers
it. -/
theorem diagnose_qualified :
    w.diagnose (.resolve field levels) =
      match lookupQualifier (levels.map Level.frame) qualifier with
      | some binding =>
          resolveAgainst w.catalog binding column columnRange qualifier
      | none =>
          some (.new .unknownRelation qualifierRange
            ("unknown relation or alias `".toList ++ qualifier
              ++ "`".toList)) := by
  rw [diagnose, resolveField, if_pos hloaded, hparts]
  rfl

theorem qualified_unknownRelation_iff :
    (∃ d ∈ w.diagnose (.resolve field levels), d.kind = .unknownRelation) ↔
      ¬Answers levels qualifier := by
  rw [diagnose_qualified hloaded levels hparts, ← lookupQualifier_ne_none_iff]
  cases lookupQualifier (levels.map Level.frame) qualifier with
  | none => simp [Diagnostic.new]
  | some binding =>
      simp only [ne_eq, reduceCtorEq, not_false_eq_true, not_true_eq_false,
        iff_false]
      rintro ⟨d, hd, hkind⟩
      rcases resolveAgainst_kind hd with hcolumn | hcolumn <;>
        rw [hkind] at hcolumn <;> cases hcolumn

end Qualified

end Walker

end Tempr.Intel
