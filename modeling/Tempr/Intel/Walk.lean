import Tempr.Intel.Resolve

/-!
# The walk as a recursion

A region is walked from the walks of the regions inside, and these are below it.
The induction over regions that all facts about walks use.
-/

namespace Tempr.Intel

open Tempr.Support

namespace Node

/-! ## What lies below a region -/

theorem mem_children_of_cteBody {cte body : Node}
    (h : cte.cteBody = some body) : body ∈ cte.children :=
  (mem_direct.1 (List.mem_of_mem_head? h)).1

theorem mem_descendants_of_cteBody {region cte body : Node}
    (hcte : cte ∈ region.direct .cte) (hbody : cte.cteBody = some body) :
    body ∈ region.descendants :=
  SpanTree.mem_descendants_iff.2 ⟨cte, (mem_direct.1 hcte).1,
    SpanTree.mem_subtrees_of_child (mem_children_of_cteBody hbody)
      (SpanTree.self_mem_subtrees body)⟩

theorem mem_subtrees_of_mem_subqueries {part sub : Node}
    (h : sub ∈ part.subqueries) : sub ∈ part.subtrees :=
  SpanTree.mem_subtrees_of_mem_topmost h

/-- The set operations of a region: itself, or those among its children. -/
def operations (region : Node) : List Node :=
  if region.kind = .setOperation then [region]
  else region.direct .setOperation

theorem mem_descendants_of_mem_operations {region op part : Node}
    (hop : op ∈ region.operations) (hpart : part ∈ op.children) :
    part ∈ region.descendants := by
  rw [operations] at hop
  split at hop
  · rw [List.mem_singleton.1 hop] at hpart
    exact SpanTree.mem_descendants_of_child hpart
  · exact SpanTree.mem_descendants_iff.2 ⟨op, (mem_direct.1 hop).1,
      SpanTree.mem_subtrees_of_child hpart (SpanTree.self_mem_subtrees part)⟩

/-- Is the region one of set operations? -/
def hasSides (region : Node) : Prop :=
  region.kind = .setOperation ∨ region.direct .setOperation ≠ []

instance (region : Node) : Decidable region.hasSides :=
  inferInstanceAs (Decidable (_ ∨ _))

/-- The clauses that share a scope, with the nodes they are siblings of. -/
structure Group where
  siblings : List Node
  parts : List Node

/-- The groups of clauses of a region: one for each side of its set operations,
or one for the region. -/
def groups (region : Node) : List Group :=
  if region.kind = .error then []
  else if region.hasSides then
    region.operations.flatMap fun op =>
      (setOperationSides op).map fun side => ⟨op.children, side⟩
  else [⟨region.children, region.children⟩]

/-- The regions in a clause. -/
def partRegions (part : Node) : List Node :=
  if part.kind = .setOperation then [part] else part.subqueries

/-- The regions directly inside a region. -/
def innerRegions (region : Node) : List Node :=
  if region.kind = .error then []
  else
    (region.direct .cte).filterMap cteBody
      ++ region.groups.flatMap fun group => group.parts.flatMap partRegions

theorem mem_subtrees_of_mem_partRegions {part sub : Node}
    (h : sub ∈ part.partRegions) : sub ∈ part.subtrees := by
  rw [partRegions] at h
  split at h
  · rw [List.mem_singleton.1 h]
    exact SpanTree.self_mem_subtrees part
  · exact mem_subtrees_of_mem_subqueries h

theorem mem_descendants_of_mem_groups {region part : Node} {group : Group}
    (hgroup : group ∈ region.groups) (hpart : part ∈ group.parts) :
    part ∈ region.descendants := by
  rw [groups] at hgroup
  split at hgroup
  · cases hgroup
  · split at hgroup
    · obtain ⟨op, hop, hside⟩ := List.mem_flatMap.1 hgroup
      obtain ⟨side, hmem, rfl⟩ := List.mem_map.1 hside
      exact mem_descendants_of_mem_operations hop
        (mem_children_of_mem_side hmem hpart)
    · rw [List.mem_singleton.1 hgroup] at hpart
      exact SpanTree.mem_descendants_of_child hpart

theorem mem_innerRegions_of_cteBody {region cte body : Node}
    (herror : region.kind ≠ .error) (hcte : cte ∈ region.direct .cte)
    (hbody : cteBody cte = some body) : body ∈ region.innerRegions := by
  rw [innerRegions, if_neg herror]
  exact List.mem_append_left _ (List.mem_filterMap.2 ⟨cte, hcte, hbody⟩)

theorem mem_innerRegions_of_mem_partRegions {region part sub : Node}
    {group : Group} (hgroup : group ∈ region.groups)
    (hpart : part ∈ group.parts) (hsub : sub ∈ part.partRegions) :
    sub ∈ region.innerRegions := by
  have herror : region.kind ≠ .error := by
    intro herror
    rw [groups, if_pos herror] at hgroup
    cases hgroup
  rw [innerRegions, if_neg herror]
  exact List.mem_append_right _ (List.mem_flatMap.2
    ⟨group, hgroup, List.mem_flatMap.2 ⟨part, hpart, hsub⟩⟩)

theorem mem_descendants_of_mem_innerRegions {region sub : Node}
    (h : sub ∈ region.innerRegions) : sub ∈ region.descendants := by
  rw [innerRegions] at h
  split at h
  · cases h
  · rcases List.mem_append.1 h with h | h
    · obtain ⟨cte, hcte, hbody⟩ := List.mem_filterMap.1 h
      exact mem_descendants_of_cteBody hcte hbody
    · obtain ⟨group, hgroup, h⟩ := List.mem_flatMap.1 h
      obtain ⟨part, hpart, hsub⟩ := List.mem_flatMap.1 h
      exact SpanTree.mem_descendants_of_mem_subtrees
        (mem_descendants_of_mem_groups hgroup hpart)
        (mem_subtrees_of_mem_partRegions hsub)

/-- The region and all regions walked inside. -/
def regionsWithin (region : Node) : List Node :=
  region :: region.innerRegions.attach.flatMap fun sub =>
    regionsWithin sub.1
termination_by region.size
decreasing_by
  exact SpanTree.size_lt_of_mem_descendants
    (mem_descendants_of_mem_innerRegions sub.2)

theorem mem_regionsWithin_iff {region r : Node} :
    r ∈ region.regionsWithin ↔
      r = region ∨ ∃ sub ∈ region.innerRegions, r ∈ sub.regionsWithin := by
  rw [regionsWithin]
  simp

theorem mem_subtrees_of_mem_regionsWithin {region r : Node}
    (h : r ∈ region.regionsWithin) : r ∈ region.subtrees := by
  induction region using SpanTree.induction_descendants with
  | h region ih =>
      rcases mem_regionsWithin_iff.1 h with rfl | ⟨sub, hsub, h⟩
      · exact SpanTree.self_mem_subtrees r
      · have hsub := mem_descendants_of_mem_innerRegions hsub
        exact SpanTree.mem_subtrees_trans
          (SpanTree.mem_subtrees_of_mem_descendants hsub) (ih sub hsub h)

end Node

namespace Walker

variable {Id : Type} [DecidableEq Id] [Unicode]

/-! ## Equations -/

omit [Unicode] in
theorem cteBodyWalks_none (inner : Node → List Level → Walk)
    (ctes : List Binding) (outer : List Level) :
    cteBodyWalks inner none ctes outer = [] := rfl

theorem walkRegionWith_error (w : Walker Id)
    {inner : Node → List Level → Walk} {region : Node} {outer : List Level}
    (h : region.kind = .error) :
    w.walkRegionWith inner region outer =
      ⟨⟨region.range, [], [], []⟩, [.syntaxError region]⟩ := by
  rw [walkRegionWith, if_pos h]

theorem walkRegionWith_sides (w : Walker Id)
    {inner : Node → List Level → Walk} {region : Node} {outer : List Level}
    (herror : region.kind ≠ .error) (h : region.hasSides) :
    w.walkRegionWith inner region outer =
      w.walkSetOperation inner region
        ((region.direct .cte).map w.cteBinding) outer
        (region.direct .setOperation) := by
  rw [walkRegionWith, if_neg herror]
  exact if_pos h

theorem walkRegionWith_parts (w : Walker Id)
    {inner : Node → List Level → Walk} {region : Node} {outer : List Level}
    (herror : region.kind ≠ .error) (h : ¬region.hasSides) :
    w.walkRegionWith inner region outer =
      w.walkParts inner region.children region.children region.range
        ((region.direct .cte).map w.cteBinding) (some region) outer := by
  rw [walkRegionWith, if_neg herror]
  exact if_neg h

/-! ## The regions inside -/

section Congr

variable {f g : Node → List Level → Walk}

omit [Unicode] in
theorem cteBodyWalks_congr {region : Node}
    (h : ∀ sub ∈ region.descendants, f sub = g sub) (ctes : List Binding)
    (outer : List Level) :
    cteBodyWalks f (some region) ctes outer =
      cteBodyWalks g (some region) ctes outer := by
  apply List.filterMap_congr
  intro p hp
  have hcte : p.1 ∈ region.direct .cte := List.fst_mem_of_mem_zipIdx hp
  cases hbody : Node.cteBody p.1 with
  | none => rfl
  | some body =>
      rw [Option.map_some, Option.map_some,
        h body (Node.mem_descendants_of_cteBody hcte hbody)]

omit [Unicode] in
theorem partWalks_congr {part : Node}
    (h : ∀ sub ∈ part.subtrees, f sub = g sub) (levels : List Level) :
    partWalks f levels part = partWalks g levels part := by
  rw [partWalks, partWalks]
  split
  · rw [h part (SpanTree.self_mem_subtrees part)]
  · apply List.map_congr_left
    intro sub hsub
    rw [h sub (Node.mem_subtrees_of_mem_subqueries hsub)]

theorem walkParts_congr {w : Walker Id} {siblings parts : List Node}
    {range : Editor.ByteRange} {ctes : List Binding} {owner : Option Node}
    {outer : List Level}
    (howner : cteBodyWalks f owner ctes outer = cteBodyWalks g owner ctes outer)
    (hparts : ∀ part ∈ parts, ∀ sub ∈ part.subtrees, f sub = g sub) :
    w.walkParts f siblings parts range ctes owner outer =
      w.walkParts g siblings parts range ctes owner outer := by
  have hwalks : ∀ levels, parts.flatMap (partWalks f levels) =
      parts.flatMap (partWalks g levels) := by
    intro levels
    apply List.flatMap_congr
    intro part hpart
    exact partWalks_congr (hparts part hpart) levels
  simp only [walkParts, howner, hwalks]

theorem walkSetOperation_congr {w : Walker Id} {region : Node}
    {ctes : List Binding} {outer : List Level}
    (h : ∀ sub ∈ region.descendants, f sub = g sub) :
    w.walkSetOperation f region ctes outer (region.direct .setOperation) =
      w.walkSetOperation g region ctes outer (region.direct .setOperation) := by
  have hsides : ∀ levels, region.operations.flatMap (fun op =>
        (setOperationSides op).map fun side =>
          w.walkParts f op.children side (partsRange side) [] none levels) =
      region.operations.flatMap (fun op =>
        (setOperationSides op).map fun side =>
          w.walkParts g op.children side (partsRange side) [] none levels) := by
    intro levels
    apply List.flatMap_congr
    intro op hop
    apply List.map_congr_left
    intro side hside
    refine walkParts_congr ?_ ?_
    · rw [cteBodyWalks_none, cteBodyWalks_none]
    intro part hpart sub hsub
    exact h sub (SpanTree.mem_descendants_of_mem_subtrees
      (Node.mem_descendants_of_mem_operations hop
        (mem_children_of_mem_side hside hpart)) hsub)
  rw [Node.operations] at hsides
  simp only [walkSetOperation, cteBodyWalks_congr h, hsides]

/-- Only regions below a region are walked inside it. -/
theorem walkRegionWith_congr {w : Walker Id} {region : Node}
    {outer : List Level} (h : ∀ sub ∈ region.descendants, f sub = g sub) :
    w.walkRegionWith f region outer = w.walkRegionWith g region outer := by
  by_cases herror : region.kind = .error
  · rw [walkRegionWith_error w herror, walkRegionWith_error w herror]
  · by_cases hsides : region.hasSides
    · rw [walkRegionWith_sides w herror hsides,
        walkRegionWith_sides w herror hsides, walkSetOperation_congr h]
    · rw [walkRegionWith_parts w herror hsides,
        walkRegionWith_parts w herror hsides]
      apply walkParts_congr (cteBodyWalks_congr h _ _)
      intro part hpart sub hsub
      exact h sub (SpanTree.mem_descendants_iff.2 ⟨part, hpart, hsub⟩)

end Congr

theorem walkRegion_eq (w : Walker Id) (region : Node) (outer : List Level) :
    w.walkRegion region outer =
      w.walkRegionWith w.walkRegion region outer := by
  rw [walkRegion]
  apply walkRegionWith_congr
  intro sub hsub
  funext levels
  rw [if_pos (SpanTree.size_lt_of_mem_descendants hsub)]

/-- What holds of the walk of a region whenever it holds of the walks inside. -/
theorem walkRegion_induction (w : Walker Id)
    {P : Node → List Level → Walk → Prop}
    (h : ∀ region outer,
      (∀ sub ∈ region.descendants, ∀ levels,
        P sub levels (w.walkRegion sub levels)) →
      P region outer (w.walkRegionWith w.walkRegion region outer))
    (region : Node) (outer : List Level) :
    P region outer (w.walkRegion region outer) := by
  induction region using SpanTree.induction_descendants generalizing outer with
  | h region ih =>
      rw [walkRegion_eq]
      exact h region outer fun sub hsub levels => ih sub hsub levels

/-! ## Where an event comes from -/

/-- The level of a group of clauses. -/
def groupLevel (w : Walker Id) (group : Node.Group) (ctes : List Binding)
    (outer : List Level) : Level where
  ctes := ctes
  sources := group.parts.flatMap
    (SpanTree.visitIn (w.phaseA ctes (outer.map Level.frame)) group.siblings)

/-- The events of a group of clauses itself. -/
def groupEvents (w : Walker Id) (group : Node.Group) (ctes : List Binding)
    (outer : List Level) : List Event :=
  (w.groupLevel group ctes outer).sources.map .bound
    ++ group.parts.flatMap (resolvePart (w.groupLevel group ctes outer :: outer))

/-- What a group of clauses leaves: its sources, what is walked inside, and its
references. -/
theorem events_walkParts (w : Walker Id) (inner : Node → List Level → Walk)
    (group : Node.Group) (range : Editor.ByteRange) (ctes : List Binding)
    (owner : Option Node) (outer : List Level) :
    (w.walkParts inner group.siblings group.parts range ctes owner
        outer).events =
      (w.groupLevel group ctes outer).sources.map .bound
        ++ ((cteBodyWalks inner owner ctes outer).flatMap Walk.events
          ++ group.parts.flatMap fun part =>
            (partWalks inner (w.groupLevel group ctes outer :: outer)
              part).flatMap Walk.events)
        ++ group.parts.flatMap
          (resolvePart (w.groupLevel group ctes outer :: outer)) := by
  rw [← List.flatMap_assoc, ← List.flatMap_append]
  rfl

omit [DecidableEq Id] [Unicode] in
theorem mem_partWalks {inner : Node → List Level → Walk}
    {levels : List Level} {part : Node} {walk : Walk}
    (h : walk ∈ partWalks inner levels part) :
    ∃ sub ∈ part.partRegions, walk = inner sub levels := by
  rw [Node.partRegions]
  rw [partWalks] at h
  split at h
  · next hset =>
      rw [if_pos hset]
      exact ⟨part, List.mem_singleton_self part, List.mem_singleton.1 h⟩
  · next hset =>
      rw [if_neg hset]
      obtain ⟨sub, hsub, rfl⟩ := List.mem_map.1 h
      exact ⟨sub, hsub, rfl⟩

end Walker

end Tempr.Intel
