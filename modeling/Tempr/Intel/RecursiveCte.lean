import Tempr.Intel.RelationItems

/-!
# Recursive CTEs

In the body of a CTE only the earlier CTEs are visible, also under `WITH
RECURSIVE`.  A reference to the CTE in its own body is therefore reported as an
unknown relation, unless something else has its name.  It binds nevertheless, so
that the columns that it qualifies are not.
-/

namespace Tempr.Intel

open Tempr.Support Tempr.Services
open Tempr.Editor (ByteRange Rope)

/-- Is the `WITH` of the region recursive? -/
def Node.isRecursive (region : Node) : Prop :=
  region.direct (.keyword "recursive") ≠ []

namespace Walker

section

variable {Id : Type} [DecidableEq Id] [Unicode] {w : Walker Id}

/-! ## What is reached -/

theorem Reaches.trans {region inner r : Node} {outer levels levels' : List Level}
    (h : w.Reaches region outer inner levels)
    (h' : w.Reaches inner levels r levels') :
    w.Reaches region outer r levels' := by
  induction h with
  | self region outer => exact h'
  | body herror hcte hbody _ ih => exact .body herror hcte hbody (ih h')
  | clause hgroup hpart hsub _ ih => exact .clause hgroup hpart hsub (ih h')

/-- The sources of a reached region are bound in the analysis. -/
theorem mem_events_of_reaches {root statement r : Node} {levels : List Level}
    {e : Event} (hstatement : statement ∈ statements root)
    (h : w.Reaches statement [] r levels) (he : w.OwnEvent r levels e) :
    e ∈ w.events root := by
  obtain ⟨hregion, hkind⟩ := List.mem_filter.1 hstatement
  have herror : statement.kind ≠ .error := by simpa using hkind
  refine List.mem_flatMap.2 ⟨statement, hregion, ?_⟩
  rw [rootEvents, if_neg herror]
  exact mem_events_iff.2 ⟨r, levels, h, he⟩

/-- No CTE of the levels has an alias. -/
def Unaliased (levels : List Level) : Prop :=
  ∀ level ∈ levels, ∀ cte ∈ level.ctes, cte.alias = none

omit [DecidableEq Id] [Unicode] in
theorem alias_of_mem_map_cteBinding {ctes : List Node} {cte : Binding}
    (h : cte ∈ ctes.map w.cteBinding) : cte.alias = none := by
  obtain ⟨node, -, rfl⟩ := List.mem_map.1 h
  rfl

omit [DecidableEq Id] [Unicode] in
theorem Unaliased.groupOuter {levels : List Level} (h : Unaliased levels)
    (region : Node) : Unaliased (w.groupOuter region levels) := by
  rw [Walker.groupOuter]
  split
  · exact List.forall_mem_cons.2 ⟨fun cte => alias_of_mem_map_cteBinding, h⟩
  · exact h

omit [DecidableEq Id] [Unicode] in
theorem alias_of_mem_groupCtes {region : Node} {cte : Binding}
    (h : cte ∈ w.groupCtes region) : cte.alias = none := by
  rw [groupCtes] at h
  split at h
  · cases h
  · exact alias_of_mem_map_cteBinding h

theorem Unaliased.groupLevels {levels : List Level} (h : Unaliased levels)
    (region : Node) (group : Node.Group) :
    Unaliased (w.groupLevels region levels group) :=
  List.forall_mem_cons.2
    ⟨fun _ => alias_of_mem_groupCtes, h.groupOuter region⟩

omit [DecidableEq Id] [Unicode] in
theorem Unaliased.bodyLevels {levels : List Level} (h : Unaliased levels)
    (region : Node) (i : ℕ) : Unaliased (w.bodyLevels region levels i) :=
  List.forall_mem_cons.2
    ⟨fun _ hcte => alias_of_mem_map_cteBinding (List.mem_of_mem_take hcte), h⟩

theorem Unaliased.of_reaches {region r : Node} {outer levels : List Level}
    (h : w.Reaches region outer r levels) (houter : Unaliased outer) :
    Unaliased levels := by
  induction h with
  | self region outer => exact houter
  | body _ _ _ _ ih => exact ih (houter.bodyLevels _ _)
  | clause _ _ _ _ ih => exact ih (houter.groupLevels _ _)

/-! ## References to a CTE in its body -/

/-- A reference to a CTE in its own body: a relation item with the name of the
CTE, among the clauses of a region that the walk reaches in the body. -/
structure SelfReference (w : Walker Id) (root : Node) where
  statement : Node
  /-- the region of the `WITH` -/
  region : Node
  outer : List Level
  /-- the place of the CTE in the `WITH` -/
  index : ℕ
  cte : Node
  body : Node
  /-- the region of the reference -/
  inner : Node
  levels : List Level
  group : Node.Group
  item : Node
  name : Text
  range : ByteRange
  statement_mem : statement ∈ statements root
  reached : w.Reaches statement [] region outer
  kind_ne : region.kind ≠ .error
  recursive : region.isRecursive
  cte_eq : (region.direct .cte)[index]? = some cte
  body_eq : cte.cteBody = some body
  reached_inner : w.Reaches body (w.bodyLevels region outer index) inner levels
  group_mem : group ∈ inner.groups
  item_mem : item ∈ group.relations
  no_subquery : item.direct .subquery = []
  parts_eq : w.relationParts item = [(name, range)]
  own : (w.cteBinding cte).name.map normalizeIdentifier = some name

namespace SelfReference

variable {root : Node} (s : SelfReference w root)

/-- The levels in which the columns of the region of the reference are
resolved. -/
def visible : List Level :=
  w.groupLevels s.inner s.levels s.group

/-- What the reference is collected as. -/
def source : Source :=
  w.relationItem (w.groupCtes s.inner)
    ((w.groupOuter s.inner s.levels).map Level.frame) s.item

/-- The name that qualifies its columns: the alias, or the name itself. -/
def callName : Text :=
  ((w.relationAlias s.item).map normalizeIdentifier).getD s.name

/-- Something else has the name: a CTE that is visible in the body, or a relation
of the catalog. -/
def OtherwiseNamed : Prop :=
  (∃ level ∈ s.visible, ∃ cte ∈ level.ctes,
    cte.matchesQualifier s.name = true) ∨
  resolveCatalogRel w.catalog none s.name ≠ none

/-- But for its case the alias is written as it is read. -/
def PlainAlias : Prop :=
  ∀ own, w.relationAlias s.item = some own →
    toLowercase own = toLowercase (normalizeIdentifier own)

/-- The event resolves, in `levels`, a column with the name as its qualifier,
where the reference is visible. -/
def Qualifies (e : Event) (levels : List Level) : Prop :=
  ∃ field front column qualifierRange columnRange,
    levels = front ++ s.visible ∧ e = .resolve field levels ∧
      w.identifierParts field =
        [(s.callName, qualifierRange), (column, columnRange)]

/-- The event is about the reference, or about a column that it qualifies. -/
def Concerns (e : Event) : Prop :=
  e = .bound s.source ∨ ∃ levels, s.Qualifies e levels

/-! ### What is known of a reference -/

theorem source_mem :
    s.source ∈ (w.groupLevel s.group (w.groupCtes s.inner)
      (w.groupOuter s.inner s.levels)).sources :=
  relationItem_mem_sources s.item_mem _ _

theorem reached_from_statement : w.Reaches s.statement [] s.inner s.levels :=
  s.reached.trans (.body s.kind_ne s.cte_eq s.body_eq s.reached_inner)

theorem bound_mem_events : Event.bound s.source ∈ w.events root :=
  mem_events_of_reaches s.statement_mem s.reached_from_statement
    (.inr ⟨s.group, s.group_mem, List.mem_append_left _
      (List.mem_map_of_mem s.source_mem)⟩)

theorem unaliased : Unaliased s.visible :=
  Unaliased.groupLevels (.of_reaches s.reached_from_statement fun _ h => by
    cases h) s.inner s.group

/-- The visible CTEs are those by which the reference resolves. -/
theorem visibleCtes_eq :
    w.groupCtes s.inner ::
        ((w.groupOuter s.inner s.levels).map Level.frame).map Frame.ctes =
      s.visible.map Level.ctes := by
  rw [List.map_map]
  rfl

theorem unresolved_eq_none_iff :
    s.source.unresolved = none ↔ s.OtherwiseNamed := by
  rw [source, Walker.unresolved_eq_none_iff s.no_subquery s.parts_eq,
    OtherwiseNamed, ne_eq, visibleCte_eq_none_iff, not_not, visibleCtes_eq]
  simp only [List.mem_map, exists_exists_and_eq_and]

/-- The reference binds, and its source answers to its name. -/
theorem answers_of_plainAlias {snapshot : SchemaSnapshot Id}
    (hcatalog : w.catalog = .fromSnapshot snapshot) (hplain : s.PlainAlias) :
    Answers s.visible s.callName := by
  have hctes : ∀ visible ∈ w.groupCtes s.inner ::
      ((w.groupOuter s.inner s.levels).map Level.frame).map Frame.ctes,
        ∀ cte ∈ visible, cte.alias = none := by
    rw [visibleCtes_eq]
    exact List.forall_mem_map.2 s.unaliased
  obtain ⟨binding, hbinding, halias, hname⟩ := exists_binding_named
    s.no_subquery s.parts_eq _ _ hctes fun idx hidx => by
      rw [hcatalog] at hidx ⊢
      exact object_of_resolveCatalogRel hidx
  refine ⟨_, List.mem_cons_self, binding, List.mem_append_right _ ?_, ?_⟩
  · exact List.mem_filterMap.2 ⟨s.source, s.source_mem, hbinding⟩
  · cases hown : w.relationAlias s.item with
    | none => simpa [callName, hown] using hname hown
    | some own =>
        rw [Binding.matchesQualifier, halias, callName, hown]
        exact decide_eq_true (hplain own hown)

theorem Qualifies.unreported_iff (hloaded : w.loaded = true) {e : Event}
    {levels : List Level} (h : s.Qualifies e levels) :
    (∀ d ∈ w.diagnose e, d.kind ≠ .unknownRelation) ↔
      Answers levels s.callName := by
  obtain ⟨field, -, column, qualifierRange, columnRange, -, rfl, hparts⟩ := h
  have hiff := not_congr (qualified_unknownRelation_iff hloaded levels hparts)
  push Not at hiff
  exact hiff

/-- Neither a reference to a CTE in its own body nor a column that it qualifies
is reported as an unknown relation if and only if something else has its name,
and the alias, where it has one, is written as it is read or is the name of
another source for all these columns. -/
theorem silent_iff (w : Walker Id) (hloaded : w.loaded = true)
    (snapshot : SchemaSnapshot Id)
    (hcatalog : w.catalog = .fromSnapshot snapshot) (root : Node)
    (s : SelfReference w root) :
    (∀ e ∈ w.events root, s.Concerns e →
        ∀ d ∈ w.diagnose e, d.kind ≠ .unknownRelation) ↔
      s.OtherwiseNamed ∧
        (s.PlainAlias ∨ ∀ e ∈ w.events root, ∀ levels, s.Qualifies e levels →
          Answers levels s.callName) := by
  have hbound : (∀ d ∈ w.diagnose (.bound s.source),
      d.kind ≠ .unknownRelation) ↔ s.OtherwiseNamed := by
    have hiff := not_congr (bound_unknownRelation_iff hloaded s.source)
    push Not at hiff
    rw [hiff, s.unresolved_eq_none_iff]
  constructor
  · intro h
    refine ⟨hbound.1 (h _ s.bound_mem_events (.inl rfl)), .inr ?_⟩
    intro e he levels hqualifies
    exact (hqualifies.unreported_iff s hloaded).1
      (h e he (.inr ⟨levels, hqualifies⟩))
  · rintro ⟨hnamed, hcolumns⟩ e he (rfl | ⟨levels, hqualifies⟩)
    · exact hbound.2 hnamed
    · refine (hqualifies.unreported_iff s hloaded).2 ?_
      rcases hcolumns with hplain | hanswers
      · obtain ⟨-, front, -, -, -, rfl, -⟩ := hqualifies
        obtain ⟨level, hlevel, hbinding⟩ :=
          s.answers_of_plainAlias hcatalog hplain
        exact ⟨level, List.mem_append_right front hlevel, hbinding⟩
      · exact hanswers e he levels hqualifies

end SelfReference

end

end Walker

/-! ## A union with itself -/

section Sample

local instance asciiRecursive : Unicode := Unicode.ascii

/-- The `t` of the second side. -/
def selfItem : Node :=
  .node .relation 65 66
    [.node .objectReference 65 66 [.leaf .identifier 65 66]]

/-- `select t.id from t` -/
def selfSide : List Node :=
  [.node .select 48 59
    [.leaf (.keyword "select") 48 54,
      .node .selectExpression 55 59
        [.node .term 55 59
          [.node .field 55 59
            [.node .objectReference 55 56 [.leaf .identifier 55 56],
              .leaf (.other ".") 56 57,
              .leaf .identifier 57 59]]]],
    .node .fromClause 60 66 [.leaf (.keyword "from") 60 64, selfItem]]

/-- `select id from users union select t.id from t` -/
def selfUnion : Node :=
  .node .setOperation 21 66
    ([.node .select 21 30
        [.leaf (.keyword "select") 21 27,
          .node .selectExpression 28 30
            [.node .term 28 30 [.node .field 28 30 [.leaf .identifier 28 30]]]],
      .node .fromClause 31 41
        [.leaf (.keyword "from") 31 35,
          .node .relation 36 41
            [.node .objectReference 36 41 [.leaf .identifier 36 41]]],
      .leaf (.keyword "union") 42 47] ++ selfSide)

def selfBody : Node :=
  .node .statement 21 66 [selfUnion]

def selfCte : Node :=
  .node .cte 15 67
    [.leaf .identifier 15 16, .leaf .keywordAs 17 19, .leaf .openParen 20 21,
      selfBody, .leaf .closeParen 66 67]

def selfStatement : Node :=
  .node .statement 0 86
    [.leaf (.keyword "with") 0 4, .leaf (.keyword "recursive") 5 14, selfCte,
      .node .select 68 79
        [.leaf (.keyword "select") 68 74,
          .node .selectExpression 75 79
            [.node .term 75 79
              [.node .field 75 79
                [.node .objectReference 75 76 [.leaf .identifier 75 76],
                  .leaf (.other ".") 76 77,
                  .leaf .identifier 77 79]]]],
      .node .fromClause 80 86
        [.leaf (.keyword "from") 80 84,
          .node .relation 85 86
            [.node .objectReference 85 86 [.leaf .identifier 85 86]]]]

def selfRoot : Node :=
  .node (.other "program") 0 86 [selfStatement]

/-- With the relation `users` in the catalog. -/
def selfWalker : Walker ℕ where
  text := ("with recursive t as (select id from users union select t.id " ++
    "from t) select t.id from t").toList
  catalog := usersCatalog

def selfReference : Walker.SelfReference selfWalker selfRoot where
  statement := selfStatement
  region := selfStatement
  outer := []
  index := 0
  cte := selfCte
  body := selfBody
  inner := selfBody
  levels := selfWalker.bodyLevels selfStatement [] 0
  group := ⟨selfUnion.children, selfSide⟩
  item := selfItem
  name := "t".toList
  range := ⟨65, 66⟩
  statement_mem := List.mem_singleton_self _
  reached := .self _ _
  kind_ne := by decide
  recursive := List.cons_ne_nil _ _
  cte_eq := rfl
  body_eq := rfl
  reached_inner := .self _ _
  group_mem := List.mem_of_getElem? (i := 1) rfl
  item_mem := List.mem_of_getElem? (i := 0) rfl
  no_subquery := rfl
  parts_eq := by decide
  own := by decide

/-- The reference of the CTE to itself is an unknown relation. -/
theorem selfReference_reported :
    ¬∀ s : Walker.SelfReference selfWalker selfRoot,
      ∀ e ∈ selfWalker.events selfRoot, s.Concerns e →
        ∀ d ∈ selfWalker.diagnose e, d.kind ≠ .unknownRelation := by
  intro h
  have hsilent := h selfReference _ selfReference.bound_mem_events (.inl rfl)
  revert hsilent
  decide +kernel

theorem silent_iff_selfReference :
    ¬∀ e ∈ selfWalker.events selfRoot, selfReference.Concerns e →
      ∀ d ∈ selfWalker.diagnose e, d.kind ≠ .unknownRelation := by
  rw [Walker.SelfReference.silent_iff selfWalker (by decide +kernel) _ rfl
    selfRoot selfReference]
  rintro ⟨hnamed, -⟩
  rw [Walker.SelfReference.OtherwiseNamed] at hnamed
  revert hnamed
  decide +kernel

end Sample

end Tempr.Intel
