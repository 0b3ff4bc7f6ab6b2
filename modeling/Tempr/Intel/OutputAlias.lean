import Tempr.Intel.RecursiveCte

/-!
# Output columns in `ORDER BY` and `GROUP BY`

The alias of a select list's term names an output column only.  A reference to
it in an `ORDER BY` or `GROUP BY` of the same query is resolved as every bare
reference is, against the visible sources.
-/

namespace Tempr.Intel

open Tempr.Support
open Tempr.Editor (ByteRange Rope)

namespace Node

/-- The items by which a clause orders or groups that are column references.
Those of an `ORDER BY` are wrapped, as each has a direction. -/
def sortItems (clause : Node) : List Node :=
  if clause.kind = .other "order_by" then
    (clause.direct (.other "order_target")).flatMap (Node.direct · .field)
  else if clause.kind = .other "group_by" then clause.direct .field
  else []

/-- The clauses of a group: its parts, and what a `FROM` among them ends with. -/
def Group.clauses (group : Group) : List Node :=
  group.parts ++
    (group.parts.filter fun part => part.kind = .fromClause).flatMap
      SpanTree.children

/-- The terms of the select list of a `SELECT`. -/
def terms (select : Node) : List Node :=
  ((select.direct .selectExpression).head?.map (Node.direct · .term)).getD []

/-- The identifier that `AS` gives a term as its name. -/
def outputAlias (term : Node) : Option Node :=
  if term.direct .keywordAs = [] then none
  else (term.direct .identifier).getLast?

end Node

namespace Walker

section

variable {Id : Type} [DecidableEq Id] [Unicode] {w : Walker Id}

/-- An item of an `ORDER BY` or `GROUP BY` that is the alias of a term in the
select list of the same query. -/
structure OutputItem (w : Walker Id) (root : Node) where
  statement : Node
  /-- the region of the query -/
  region : Node
  levels : List Level
  group : Node.Group
  select : Node
  term : Node
  identifier : Node
  clause : Node
  field : Node
  name : Text
  range : ByteRange
  statement_mem : statement ∈ statements root
  reached : w.Reaches statement [] region levels
  group_mem : group ∈ region.groups
  select_mem : select ∈ group.parts
  select_kind : select.kind = .select
  term_mem : term ∈ select.terms
  alias_eq : term.outputAlias = some identifier
  clause_mem : clause ∈ group.clauses
  field_mem : field ∈ clause.sortItems
  parts_eq : w.identifierParts field = [(name, range)]
  named : name = normalizeIdentifier (w.textOf (Node.range identifier))

namespace OutputItem

variable {root : Node} (item : OutputItem w root)

/-- The reference that the item is. -/
def reference : BareReference :=
  ⟨item.name, item.range,
    w.groupLevels item.region item.levels item.group⟩

def event : Event :=
  .resolve item.field item.reference.levels

omit [Unicode] in
theorem resolve_mem_visitStack (levels : List Level) {clause field : Node}
    (h : field ∈ clause.sortItems) :
    Event.resolve field levels ∈
      SpanTree.visitStack (resolveStep levels) clause := by
  have hself : ∀ {node : Node}, field ∈ node.direct .field →
      ∃ child ∈ node.children,
        Event.resolve field levels ∈
          SpanTree.visitStack (resolveStep levels) child := by
    intro node hfield
    obtain ⟨hchild, hkind⟩ := Node.mem_direct.1 hfield
    exact ⟨field, hchild, SpanTree.mem_visitStack_iff.2
      (.inl (by simp [resolveStep, hkind]))⟩
  have hbelow : ∀ {node : Node} {name : String}, node.kind = .other name →
      (resolveStep levels node).2 = true := by
    intro node name hkind
    simp [resolveStep, hkind]
  rw [Node.sortItems] at h
  split at h
  · rename_i hkind
    obtain ⟨target, htarget, hfield⟩ := List.mem_flatMap.1 h
    obtain ⟨hchild, htargetKind⟩ := Node.mem_direct.1 htarget
    refine SpanTree.mem_visitStack_iff.2
      (.inr ⟨hbelow hkind, target, hchild, ?_⟩)
    exact SpanTree.mem_visitStack_iff.2
      (.inr ⟨hbelow htargetKind, hself hfield⟩)
  · split at h
    · rename_i hkind
      exact SpanTree.mem_visitStack_iff.2 (.inr ⟨hbelow hkind, hself h⟩)
    · cases h

omit [Unicode] in
theorem kind_of_mem_sortItems {clause field : Node}
    (h : field ∈ clause.sortItems) : clause.kind ≠ .setOperation := by
  intro hkind
  simp [Node.sortItems, hkind] at h

/-- The item is resolved in the levels of its query. -/
theorem event_mem_events : item.event ∈ w.events root := by
  refine mem_events_of_reaches item.statement_mem item.reached
    (.inr ⟨item.group, item.group_mem, List.mem_append_right _ ?_⟩)
  have hvisit := resolve_mem_visitStack item.reference.levels item.field_mem
  rcases List.mem_append.1 item.clause_mem with hpart | hchild
  · refine List.mem_flatMap.2 ⟨item.clause, hpart, ?_⟩
    rw [resolvePart, if_neg (kind_of_mem_sortItems item.field_mem)]
    exact hvisit
  · obtain ⟨part, hfilter, hchild⟩ := List.mem_flatMap.1 hchild
    obtain ⟨hpart, hkind⟩ := List.mem_filter.1 hfilter
    have hkind : part.kind = .fromClause := of_decide_eq_true hkind
    refine List.mem_flatMap.2 ⟨part, hpart, ?_⟩
    rw [resolvePart, if_neg (by simp [hkind])]
    exact SpanTree.mem_visitStack_iff.2
      (.inr ⟨by simp [resolveStep, hkind], item.clause, hchild, hvisit⟩)

theorem bareReference_event : w.bareReference item.event = some item.reference := by
  rw [event, bareReference, item.parts_eq]
  rfl

/-- An item of an `ORDER BY` or `GROUP BY` that is the alias of an output column
is reported as an unknown column if and only if it would be without the alias:
there is a catalog, some visible source has columns, and none has one of the
name. -/
theorem unknownColumn_iff_sources (w : Walker Id) (root : Node)
    (item : OutputItem w root) :
    item.event ∈ w.events root ∧
      ((∃ d ∈ w.diagnose item.event, d.kind = .unknownColumn) ↔
        w.loaded = true ∧
          (∃ binding ∈ item.reference.bindings, binding.columns ≠ []) ∧
          ∀ binding ∈ item.reference.bindings,
            binding.columnHits item.name w.catalog = []) := by
  refine ⟨item.event_mem_events, ?_⟩
  cases hloaded : w.loaded with
  | true =>
      rw [Walker.unknownColumn_iff hloaded item.bareReference_event]
      simp only [true_and]
      rfl
  | false =>
      rw [event, diagnose, resolveField_of_not_loaded hloaded]
      simp

end OutputItem

end

end Walker

/-! ## A query ordered by its alias -/

section Sample

local instance asciiOutput : Unicode := Unicode.ascii

/-- `id as n` -/
def aliasedTerm : Node :=
  .node .term 7 14
    [.node .field 7 9 [.leaf .identifier 7 9], .leaf .keywordAs 10 12,
      .leaf .identifier 13 14]

def aliasedSelect : Node :=
  .node .select 0 14
    [.leaf (.keyword "select") 0 6, .node .selectExpression 7 14 [aliasedTerm]]

def orderedField : Node :=
  .node .field 35 36 [.leaf .identifier 35 36]

/-- `order by n` -/
def orderedClause : Node :=
  .node (.other "order_by") 26 36
    [.leaf (.keyword "order") 26 31, .leaf (.keyword "by") 32 34,
      .node (.other "order_target") 35 36 [orderedField]]

def orderedStatement : Node :=
  .node .statement 0 36
    [aliasedSelect,
      .node .fromClause 15 36
        [.leaf (.keyword "from") 15 19,
          .node .relation 20 25
            [.node .objectReference 20 25 [.leaf .identifier 20 25]],
          orderedClause]]

def orderedRoot : Node :=
  .node (.other "program") 0 36 [orderedStatement]

def orderedText : Text :=
  "select id as n from users order by n".toList

def orderedWalker : Walker ℕ where
  text := orderedText
  catalog := usersCatalog

/-- The item `n`, whatever the catalog. -/
def orderedItem (catalog : CatalogCache ℕ) :
    Walker.OutputItem ⟨orderedText, catalog⟩ orderedRoot where
  statement := orderedStatement
  region := orderedStatement
  levels := []
  group := ⟨orderedStatement.children, orderedStatement.children⟩
  select := aliasedSelect
  term := aliasedTerm
  identifier := .leaf .identifier 13 14
  clause := orderedClause
  field := orderedField
  name := "n".toList
  range := ⟨35, 36⟩
  statement_mem := List.mem_singleton_self _
  reached := .self _ _
  group_mem := List.mem_singleton_self _
  select_mem := List.mem_cons_self
  select_kind := rfl
  term_mem := List.mem_singleton_self _
  alias_eq := rfl
  clause_mem := List.mem_of_getElem? (i := 4) rfl
  field_mem := List.mem_singleton_self _
  parts_eq := rfl
  named := rfl

/-- The relation `users` has no column `n`. -/
theorem orderedItem_reported :
    ¬∀ item : Walker.OutputItem orderedWalker orderedRoot,
      ∀ d ∈ orderedWalker.diagnose item.event, d.kind ≠ .unknownColumn := by
  intro h
  have hitem := h (orderedItem usersCatalog)
  revert hitem
  decide +kernel

/-- A relation `users` with the columns `id` and `n`. -/
def numberedCatalog : CatalogCache ℕ :=
  .fromSnapshot
    { id := ⟨"s"⟩, connectionId := ⟨"c"⟩, version := 1
      objects :=
        [.table 1 "public" "users" none,
          .column 2 1 "id" "int8" false 0 none,
          .column 3 1 "n" "int8" false 1 none]
      keywords := [], fingerprints := [] }

/-- Where `users` has a column `n` as well, the item is the column. -/
theorem orderedItem_silent :
    (orderedItem numberedCatalog).event ∈
        Walker.events ⟨orderedText, numberedCatalog⟩ orderedRoot ∧
      ¬∃ d ∈ Walker.diagnose ⟨orderedText, numberedCatalog⟩
          (orderedItem numberedCatalog).event, d.kind = .unknownColumn := by
  have h := Walker.OutputItem.unknownColumn_iff_sources
    ⟨orderedText, numberedCatalog⟩ orderedRoot (orderedItem numberedCatalog)
  refine ⟨h.1, fun hreported => ?_⟩
  obtain ⟨-, -, hnone⟩ := h.2.1 hreported
  revert hnone
  decide +kernel

end Sample

end Tempr.Intel
