import Tempr.Intel.Walk

/-!
# The regions that a walk reaches

A walk goes from a region to the bodies of its CTEs and to the subqueries of its
clauses, each under levels that the walk has made.  The events of a walk are
those of the clauses of the regions that it reaches, under these levels.
-/

namespace Tempr.Intel

open Tempr.Support

namespace Walker

variable {Id : Type} [DecidableEq Id] [Unicode]

/-- The CTEs in the level of a region's clauses.  Those of a region of set
operations have a level of their own. -/
def groupCtes (w : Walker Id) (region : Node) : List Binding :=
  if region.hasSides then [] else (region.direct .cte).map w.cteBinding

/-- The levels around the level of a region's clauses. -/
def groupOuter (w : Walker Id) (region : Node) (outer : List Level) :
    List Level :=
  if region.hasSides then ⟨(region.direct .cte).map w.cteBinding, []⟩ :: outer
  else outer

/-- The levels in which the references of a group of clauses are resolved. -/
def groupLevels (w : Walker Id) (region : Node) (outer : List Level)
    (group : Node.Group) : List Level :=
  w.groupLevel group (w.groupCtes region) (w.groupOuter region outer) ::
    w.groupOuter region outer

/-- The levels around the body of the CTE at `i`: of the CTEs beside it only
the earlier ones are visible. -/
def bodyLevels (w : Walker Id) (region : Node) (outer : List Level) (i : ℕ) :
    List Level :=
  ⟨((region.direct .cte).map w.cteBinding).take i, []⟩ :: outer

/-- The walk of a region under `outer` walks the region `r` under `levels`. -/
inductive Reaches (w : Walker Id) :
    Node → List Level → Node → List Level → Prop
  | self (region : Node) (outer : List Level) :
      Reaches w region outer region outer
  | body {region cte body r : Node} {outer levels : List Level} {i : ℕ} :
      region.kind ≠ .error → (region.direct .cte)[i]? = some cte →
        cte.cteBody = some body →
          Reaches w body (w.bodyLevels region outer i) r levels →
            Reaches w region outer r levels
  | clause {region part sub r : Node} {outer levels : List Level}
      {group : Node.Group} :
      group ∈ region.groups → part ∈ group.parts → sub ∈ part.partRegions →
        Reaches w sub (w.groupLevels region outer group) r levels →
          Reaches w region outer r levels

/-- The events of a region's own clauses. -/
def OwnEvent (w : Walker Id) (region : Node) (outer : List Level) (e : Event) :
    Prop :=
  (region.kind = .error ∧ e = .syntaxError region) ∨
    ∃ group ∈ region.groups,
      e ∈ w.groupEvents group (w.groupCtes region) (w.groupOuter region outer)

variable {w : Walker Id} {region : Node} {outer : List Level} {e : Event}

omit [DecidableEq Id] [Unicode] in
theorem mem_cteBodyWalks_iff {inner : Node → List Level → Walk}
    {ctes : List Binding} :
    e ∈ (cteBodyWalks inner (some region) ctes outer).flatMap Walk.events ↔
      ∃ i cte body, (region.direct .cte)[i]? = some cte ∧
        cte.cteBody = some body ∧
        e ∈ (inner body (⟨ctes.take i, []⟩ :: outer)).events := by
  rw [cteBodyWalks, List.mem_flatMap]
  constructor
  · rintro ⟨walk, hwalk, he⟩
    obtain ⟨⟨cte, i⟩, hp, hmap⟩ := List.mem_filterMap.1 hwalk
    obtain ⟨body, hbody, rfl⟩ := Option.map_eq_some_iff.1 hmap
    exact ⟨i, cte, body, List.mem_zipIdx_iff_getElem?.1 hp, hbody, he⟩
  · rintro ⟨i, cte, body, hcte, hbody, he⟩
    refine ⟨_, List.mem_filterMap.2 ⟨(cte, i), ?_,
      congrArg (Option.map _) hbody⟩, ?_⟩
    · exact List.mem_zipIdx_iff_getElem?.2 hcte
    · exact he

omit [DecidableEq Id] [Unicode] in
theorem mem_partWalks_iff {inner : Node → List Level → Walk}
    {levels : List Level} {part : Node} :
    e ∈ (partWalks inner levels part).flatMap Walk.events ↔
      ∃ sub ∈ part.partRegions, e ∈ (inner sub levels).events := by
  rw [partWalks, Node.partRegions]
  split <;> simp

/-- The events of a group's walk, by where they come from. -/
theorem mem_walkParts_iff (group : Node.Group)
    (inner : Node → List Level → Walk) (range : Editor.ByteRange)
    (ctes : List Binding) (owner : Option Node) (outer : List Level) :
    e ∈ (w.walkParts inner group.siblings group.parts range ctes owner
        outer).events ↔
      e ∈ w.groupEvents group ctes outer ∨
        e ∈ (cteBodyWalks inner owner ctes outer).flatMap Walk.events ∨
          ∃ part ∈ group.parts, ∃ sub ∈ part.partRegions,
            e ∈ (inner sub (w.groupLevel group ctes outer :: outer)).events := by
  rw [events_walkParts, groupEvents]
  simp only [List.mem_append, List.mem_flatMap (l := group.parts),
    mem_partWalks_iff]
  exact or_right_comm

/-- The events of the sides of set operations, by where they come from. -/
theorem mem_sideWalks_iff (hset : region.hasSides)
    (herror : region.kind ≠ .error) (levels : List Level) :
    e ∈ (region.operations.flatMap fun op =>
        (setOperationSides op).map fun side =>
          w.walkParts w.walkRegion op.children side (partsRange side) [] none
            levels).flatMap Walk.events ↔
      ∃ group ∈ region.groups, e ∈ w.groupEvents group [] levels ∨
        ∃ part ∈ group.parts, ∃ sub ∈ part.partRegions,
          e ∈ (w.walkRegion sub
            (w.groupLevel group [] levels :: levels)).events := by
  have hgroup : ∀ (op : Node) (side : List Node),
      e ∈ (w.walkParts w.walkRegion op.children side (partsRange side) [] none
        levels).events ↔
      e ∈ w.groupEvents ⟨op.children, side⟩ [] levels ∨
        ∃ part ∈ side, ∃ sub ∈ part.partRegions,
          e ∈ (w.walkRegion sub
            (w.groupLevel ⟨op.children, side⟩ [] levels :: levels)).events := by
    intro op side
    have hparts := mem_walkParts_iff (w := w) (e := e) ⟨op.children, side⟩
      w.walkRegion (partsRange side) [] none levels
    rw [hparts, cteBodyWalks_none]
    simp only [List.flatMap_nil, List.not_mem_nil, false_or]
  rw [Node.groups, if_neg herror, if_pos hset]
  simp only [List.mem_flatMap, List.mem_map]
  constructor
  · rintro ⟨_, ⟨op, hop, side, hside, rfl⟩, he⟩
    exact ⟨_, ⟨op, hop, side, hside, rfl⟩, (hgroup op side).1 he⟩
  · rintro ⟨_, ⟨op, hop, side, hside, rfl⟩, he⟩
    exact ⟨_, ⟨op, hop, side, hside, rfl⟩, (hgroup op side).2 he⟩

/-- The events of a region's walk, by where they come from. -/
theorem mem_walkRegion_iff :
    e ∈ (w.walkRegion region outer).events ↔
      w.OwnEvent region outer e ∨
        (region.kind ≠ .error ∧ ∃ i cte body,
          (region.direct .cte)[i]? = some cte ∧ cte.cteBody = some body ∧
            e ∈ (w.walkRegion body (w.bodyLevels region outer i)).events) ∨
        ∃ group ∈ region.groups, ∃ part ∈ group.parts,
          ∃ sub ∈ part.partRegions,
            e ∈ (w.walkRegion sub (w.groupLevels region outer group)).events := by
  rw [walkRegion_eq, OwnEvent]
  by_cases herror : region.kind = .error
  · have hgroups : region.groups = [] := by rw [Node.groups, if_pos herror]
    rw [walkRegionWith_error w herror, hgroups]
    simp [herror]
  by_cases hsides : region.hasSides
  · rw [walkRegionWith_sides w herror hsides]
    simp only [walkSetOperation, List.flatMap_append, List.mem_append,
      mem_cteBodyWalks_iff]
    have hwalks := mem_sideWalks_iff (w := w) (e := e) hsides herror
      (⟨(region.direct .cte).map w.cteBinding, []⟩ :: outer)
    rw [Node.operations] at hwalks
    rw [hwalks]
    simp only [bodyLevels, groupLevels, groupCtes, groupOuter, if_pos hsides,
      and_or_left, exists_or, ne_eq, herror, not_false_eq_true, false_and,
      false_or, true_and]
    exact or_left_comm
  · have hgroups : region.groups = [⟨region.children, region.children⟩] := by
      rw [Node.groups, if_neg herror, if_neg hsides]
    rw [walkRegionWith_parts w herror hsides, hgroups]
    have hparts := mem_walkParts_iff (w := w) (e := e)
      ⟨region.children, region.children⟩ w.walkRegion region.range
      ((region.direct .cte).map w.cteBinding) (some region) outer
    rw [hparts, mem_cteBodyWalks_iff]
    simp only [List.mem_singleton, exists_eq_left, bodyLevels, groupLevels,
      groupCtes, groupOuter, if_neg hsides, ne_eq, herror, not_false_eq_true,
      false_and, false_or, true_and]

/-- The events of a walk are those of the clauses of the regions it reaches. -/
theorem mem_events_iff :
    e ∈ (w.walkRegion region outer).events ↔
      ∃ r levels, w.Reaches region outer r levels ∧ w.OwnEvent r levels e := by
  constructor
  · intro he
    induction region using SpanTree.induction_descendants generalizing outer with
    | h region ih =>
        rcases mem_walkRegion_iff.1 he with
          hown | ⟨herror, i, cte, body, hcte, hbody, he⟩ |
            ⟨group, hgroup, part, hpart, sub, hsub, he⟩
        · exact ⟨region, outer, .self region outer, hown⟩
        · have hmem : body ∈ region.descendants :=
            Node.mem_descendants_of_cteBody (List.mem_of_getElem? hcte) hbody
          obtain ⟨r, levels, hreaches, hown⟩ := ih body hmem he
          exact ⟨r, levels, .body herror hcte hbody hreaches, hown⟩
        · have hmem : sub ∈ region.descendants :=
            SpanTree.mem_descendants_of_mem_subtrees
              (Node.mem_descendants_of_mem_groups hgroup hpart)
              (Node.mem_subtrees_of_mem_partRegions hsub)
          obtain ⟨r, levels, hreaches, hown⟩ := ih sub hmem he
          exact ⟨r, levels, .clause hgroup hpart hsub hreaches, hown⟩
  · rintro ⟨r, levels, hreaches, hown⟩
    induction hreaches with
    | self region outer => exact mem_walkRegion_iff.2 (.inl hown)
    | body herror hcte hbody _ ih =>
        exact mem_walkRegion_iff.2
          (.inr (.inl ⟨herror, _, _, _, hcte, hbody, ih hown⟩))
    | clause hgroup hpart hsub _ ih =>
        exact mem_walkRegion_iff.2
          (.inr (.inr ⟨_, hgroup, _, hpart, _, hsub, ih hown⟩))

theorem Reaches.mem_regionsWithin {r : Node} {levels : List Level}
    (h : w.Reaches region outer r levels) : r ∈ region.regionsWithin := by
  induction h with
  | self region outer => exact Node.mem_regionsWithin_iff.2 (.inl rfl)
  | body herror hcte hbody _ ih =>
      have hinner := Node.mem_innerRegions_of_cteBody herror
        (List.mem_of_getElem? hcte) hbody
      exact Node.mem_regionsWithin_iff.2 (.inr ⟨_, hinner, ih⟩)
  | clause hgroup hpart hsub _ ih =>
      have hinner := Node.mem_innerRegions_of_mem_partRegions hgroup hpart hsub
      exact Node.mem_regionsWithin_iff.2 (.inr ⟨_, hinner, ih⟩)

/-- An event of the walk of `region` arises in some region inside. -/
def Arises (w : Walker Id) (region : Node) (e : Event) : Prop :=
  ∃ r ∈ region.regionsWithin,
    (r.kind = .error ∧ e = .syntaxError r) ∨
      ∃ group ∈ r.groups, ∃ ctes outer, e ∈ w.groupEvents group ctes outer

/-- Every event of a walk arises in one of its regions. -/
theorem arises_of_mem_events (h : e ∈ (w.walkRegion region outer).events) :
    w.Arises region e := by
  obtain ⟨r, levels, hreaches, hown⟩ := mem_events_iff.1 h
  refine ⟨r, hreaches.mem_regionsWithin, ?_⟩
  rcases hown with herror | ⟨group, hgroup, he⟩
  · exact .inl herror
  · exact .inr ⟨group, hgroup, _, _, he⟩

end Walker

end Tempr.Intel
