import Tempr.Intel.ScopeRanges

/-!
# Scopes and frames

The analysis hands the frames down as it walks, and the editor features find the
scopes again by their ranges. Both see the same sources at a column reference,
unless it lies in the body of a CTE: there the analysis sees only the earlier
CTEs of the statement, and the features all of its sources.
-/

namespace Tempr.Intel

open Tempr.Support
open Tempr.Editor (ByteRange Buffer)

theorem levels_eq_of_mem_resolvePart {levels levels' : List Level}
    {part field : Node}
    (h : Event.resolve field levels' ∈ resolvePart levels part) :
    levels' = levels := by
  rw [resolvePart] at h
  split at h
  · cases h
  · have hstep : ∀ node, Event.resolve field levels' ∈
        (resolveStep levels node).1 → levels' = levels := by
      intro node hnode
      cases node with
      | node kind start stop children =>
          cases kind <;> simp_all [resolveStep, SpanTree.kind]
    obtain ⟨_, -, hlevels⟩ := SpanTree.exists_mem_visitStack
      (g := Node.fieldStep) (R := fun _ => levels' = levels)
      (fun node hnode =>
        ⟨field, resolve_mem_fieldStep hnode, hstep node hnode⟩)
      (fun node hgo => (resolveStep_snd_eq levels node).symm.trans hgo) h
    exact hlevels

/-- A scope that contains the offset has the byte through which it is
reached. -/
theorem covers_of_contains {region sub : Node} {scope : Scope}
    {offset byte : ℕ} (hsub : sub ∈ region.innerRegions)
    (hrange : scope.range = sub.range)
    (hreach : Node.ReachedThrough region.scopeRanges offset byte)
    (hcontains : scope.contains offset = true) : SpanTree.Covers sub byte := by
  have hmem : sub.range ∈ region.scopeRanges :=
    Node.scopeRanges_subset_of_inner hsub (Node.range_mem_scopeRanges sub)
  rw [Scope.contains, hrange] at hcontains
  obtain ⟨hle, hge⟩ := of_decide_eq_true hcontains
  exact hreach _ hmem hle hge

section Walks

variable {Id : Type} [DecidableEq Id] [Unicode]

namespace Walker

/-- What is shown of a column reference in a region: the levels extend those that
enclose the region, and agree with the scopes unless the reference is in the
body of a CTE. -/
structure Seen (region : Node) (outer : List Level) (scope : Scope)
    (field : Node) (levels : List Level) : Prop where
  suffix : outer <:+ levels
  subtree : field ∈ region.subtrees
  agrees_iff : ∀ {offset byte : ℕ}, SpanTree.Covers field byte →
    byte ≤ offset → offset ≤ byte + 1 →
      Node.ReachedThrough region.scopeRanges offset byte →
        (Agrees offset scope levels outer ↔ ¬region.InCteBody field)

/-- The scope of a group of clauses, with scopes of CTE bodies before those of the
clauses. -/
def groupScope (w : Walker Id) (group : Node.Group) (range : ByteRange)
    (ctes : List Binding) (outer : List Level) (bodies : List Scope) : Scope :=
  ⟨range, ctes, (w.groupLevel group ctes outer).frame.bindings,
    bodies ++ (group.parts.flatMap (partWalks w.walkRegion
      (w.groupLevel group ctes outer :: outer))).map Walk.scope⟩

/-! ## References in a group of clauses -/

section Group

variable {w : Walker Id} {region : Node} (hordered : region.Ordered)
  {group : Node.Group} (hgroup : group ∈ region.groups) {range : ByteRange}
  {ctes : List Binding} {outer : List Level} {bodies : List Scope}
  (hbodies : ∀ t ∈ bodies, ∃ body ∈ region.bodies, t.range = Node.range body)

include hordered hgroup hbodies

/-- Of the scopes in a group, those of its parts' regions alone can contain an
offset in a part that is no CTE. -/
theorem exists_region_of_contains {part : Node} (hpart : part ∈ group.parts)
    (hkind : SpanTree.kind part ≠ .cte) {offset byte : ℕ}
    (hbyte : SpanTree.Covers part byte)
    (hreach : Node.ReachedThrough region.scopeRanges offset byte) {t : Scope}
    (ht : t ∈ (w.groupScope group range ctes outer bodies).children)
    (hcontains : t.contains offset = true) :
    ∃ sub ∈ part.partRegions, SpanTree.Covers sub byte ∧
      t = (w.walkRegion sub (w.groupLevel group ctes outer :: outer)).scope := by
  rcases List.mem_append.1 ht with ht | ht
  · obtain ⟨body, hbody, hrange⟩ := hbodies t ht
    obtain ⟨cte, hcte, hcovers⟩ := Node.exists_cte_of_covers hordered hbody
      (covers_of_contains (Node.mem_innerRegions_iff.2 (.inl hbody)) hrange
        hreach hcontains)
    exact absurd hcovers
      (Node.not_covers_cte hordered hgroup hpart hkind hbyte hcte)
  · obtain ⟨walk, hwalk, rfl⟩ := List.mem_map.1 ht
    obtain ⟨part', hpart', hwalk⟩ := List.mem_flatMap.1 hwalk
    obtain ⟨sub, hsub, rfl⟩ := mem_partWalks hwalk
    have hcovers := covers_of_contains
      (Node.mem_innerRegions_of_mem_partRegions hgroup hpart' hsub)
      (walkRegion_range w sub _) hreach hcontains
    obtain ⟨host, hhost, hchild⟩ := Node.exists_host hgroup hpart'
    have hord := (Node.ordered_of_mem_hosts hordered hhost).of_mem_children hchild
    obtain rfl := Node.part_eq_of_covers hordered hgroup hpart hgroup hpart'
      hbyte (hcovers.mono
        (hord.within (Node.mem_subtrees_of_mem_partRegions hsub)))
    exact ⟨sub, hsub, hcovers, rfl⟩

/-- A reference that the group resolves itself has the frame of the group on
top. -/
theorem seen_of_resolvePart (hplain : region.PlainFields) {part : Node}
    (hpart : part ∈ group.parts) {field : Node} {levels : List Level}
    (h : Event.resolve field levels ∈
      resolvePart (w.groupLevel group ctes outer :: outer) part) :
    Seen region outer (w.groupScope group range ctes outer bodies) field
      levels := by
  obtain rfl := levels_eq_of_mem_resolvePart h
  obtain ⟨hset, hfield⟩ := resolve_mem_resolvePart h
  have hsubtree := Node.mem_subtrees_of_mem_fields hfield
  have hkind := Node.kind_ne_cte_of_mem_fields hfield
  have hdescendant := Node.mem_descendants_of_mem_groups hgroup hpart
  have hmem := SpanTree.mem_subtrees_of_mem_descendants hdescendant
  have hord : SpanTree.Ordered part := hordered.of_mem_subtrees hmem
  have hplainPart : part.PlainFields := fun node hnode =>
    hplain node (SpanTree.mem_subtrees_trans hmem hnode)
  have hregions : part.partRegions = part.subqueries := if_neg hset
  refine ⟨List.suffix_cons _ _, SpanTree.mem_subtrees_trans hmem hsubtree, ?_⟩
  intro offset byte hcovers hle hge hreach
  have hbyte := hcovers.mono (hord.within hsubtree)
  -- no region inside has the byte
  have hnone : ∀ sub ∈ part.partRegions, ¬SpanTree.Covers sub byte := by
    rw [hregions]
    intro sub hsub
    exact Node.not_covers_subquery hord hplainPart hfield hsub hcovers
  have hagrees : Agrees offset (w.groupScope group range ctes outer bodies)
      (w.groupLevel group ctes outer :: outer) outer := by
    apply agrees_of_descend_eq_none rfl
    apply Scope.descend_eq_none
    intro t ht hcontains
    obtain ⟨sub, hsub, hsubCovers, -⟩ := exists_region_of_contains hordered
      hgroup hbodies hpart hkind hbyte hreach ht hcontains
    exact hnone sub hsub hsubCovers
  refine iff_of_true hagrees ?_
  rw [Node.inCteBody_iff hordered hgroup hpart hkind hbyte hcovers]
  rintro ⟨sub, hsub, body, hbody, hwithin⟩
  have hsubOrdered := hord.of_mem_subtrees
    (Node.mem_subtrees_of_mem_partRegions hsub)
  exact hnone sub hsub ((hcovers.mono hwithin).mono
    (hsubOrdered.within (Node.mem_subtrees_of_mem_bodiesWithin hbody)))

/-- A reference in a region of the group has the frame of the group below those
of the region. -/
theorem seen_of_partRegion {part sub : Node} (hpart : part ∈ group.parts)
    (hsub : sub ∈ part.partRegions) {field : Node} {levels : List Level}
    (h : Seen sub (w.groupLevel group ctes outer :: outer)
      (w.walkRegion sub (w.groupLevel group ctes outer :: outer)).scope field
      levels) :
    Seen region outer (w.groupScope group range ctes outer bodies) field
      levels := by
  have hinner := Node.mem_innerRegions_of_mem_partRegions hgroup hpart hsub
  have hkind := Node.kind_ne_cte_of_mem_partRegions hsub
  have hmem := SpanTree.mem_subtrees_of_mem_descendants
    (Node.mem_descendants_of_mem_groups hgroup hpart)
  have hsubtree := Node.mem_subtrees_of_mem_partRegions hsub
  have hord : SpanTree.Ordered part := hordered.of_mem_subtrees hmem
  refine ⟨(List.suffix_cons _ _).trans h.suffix,
    SpanTree.mem_subtrees_trans hmem
      (SpanTree.mem_subtrees_trans hsubtree h.subtree), ?_⟩
  intro offset byte hcovers hle hge hreach
  have hsubCovers :=
    hcovers.mono ((hord.of_mem_subtrees hsubtree).within h.subtree)
  have hbyte := hsubCovers.mono (hord.within hsubtree)
  -- the region is the only one of the part that has the byte
  have hunique : ∀ sub' ∈ part.partRegions, SpanTree.Covers sub' byte →
      sub' = sub := by
    intro sub' hsub' hcovers'
    exact Node.partRegion_eq_of_covers hordered hgroup hpart hgroup hpart hsub'
      hsub hcovers' hsubCovers
  have hfound : Scope.descend offset
      (w.groupScope group range ctes outer bodies).children =
        some (Scope.chain offset (w.walkRegion sub
          (w.groupLevel group ctes outer :: outer)).scope) := by
    apply Scope.descend_eq_some
    · refine List.mem_append_right _ (List.mem_map_of_mem
        (List.mem_flatMap.2 ⟨part, hpart, ?_⟩))
      rw [partWalks]
      rw [Node.partRegions] at hsub
      split
      · next hset =>
          rw [if_pos hset] at hsub
          rw [List.mem_singleton.1 hsub]
          exact List.mem_singleton_self _
      · next hset =>
          rw [if_neg hset] at hsub
          exact List.mem_map_of_mem hsub
    · exact Scope.contains_of_covers (walkRegion_range w sub _) hsubCovers hle
        hge
    · intro t ht hcontains
      obtain ⟨sub', hsub', hcovers', rfl⟩ := exists_region_of_contains hordered
        hgroup hbodies hpart hkind hbyte hreach ht hcontains
      rw [hunique sub' hsub' hcovers']
  have hframe : (w.groupScope group range ctes outer bodies).frame =
      (w.groupLevel group ctes outer).frame := rfl
  rw [agrees_iff_of_descend_eq_some hframe hfound,
    h.agrees_iff hcovers hle hge (fun range hrange =>
      hreach range (Node.scopeRanges_subset_of_inner hinner hrange)),
    Node.inCteBody_iff hordered hgroup hpart hkind hbyte hcovers, not_iff_not]
  constructor
  · exact fun hbody => ⟨sub, hsub, hbody⟩
  · rintro ⟨sub', hsub', body, hbody, hwithin⟩
    have hord' := hord.of_mem_subtrees
      (Node.mem_subtrees_of_mem_partRegions hsub')
    obtain rfl := hunique sub' hsub' ((hcovers.mono hwithin).mono
      (hord'.within (Node.mem_subtrees_of_mem_bodiesWithin hbody)))
    exact ⟨body, hbody, hwithin⟩

end Group

/-! ## References in a region -/

section Region

variable {w : Walker Id} {region : Node}

/-- The scopes of the CTE bodies have their ranges. -/
theorem range_of_bodyScope (herror : region.kind ≠ .error)
    (ctes : List Binding) (outer : List Level) :
    ∀ t ∈ (cteBodyWalks w.walkRegion (some region) ctes outer).map Walk.scope,
      ∃ body ∈ region.bodies, t.range = Node.range body := by
  intro t ht
  obtain ⟨walk, hwalk, rfl⟩ := List.mem_map.1 ht
  obtain ⟨p, hp, hmap⟩ := List.mem_filterMap.1 hwalk
  obtain ⟨body, hbody, rfl⟩ := Option.map_eq_some_iff.1 hmap
  have hcte : p.1 ∈ region.direct .cte := List.fst_mem_of_mem_zipIdx hp
  exact ⟨body, Node.mem_bodies_of_cteBody herror hcte hbody, rfl⟩

/-- The scope of a region has the CTEs of the region. -/
theorem walkRegion_ctes (herror : region.kind ≠ .error) (outer : List Level) :
    (w.walkRegion region outer).scope.ctes =
      (region.direct .cte).map w.cteBinding := by
  rw [walkRegion_eq]
  by_cases hsides : region.hasSides
  · rw [walkRegionWith_sides w herror hsides]
    rfl
  · rw [walkRegionWith_parts w herror hsides]
    rfl

omit [DecidableEq Id] [Unicode] in
/-- A reference in the body of a CTE sees fewer CTEs than the scope of the
statement has. -/
theorem seen_of_body (hordered : region.Ordered)
    (herror : region.kind ≠ .error) {outer : List Level} {scope : Scope}
    (hctes : scope.ctes = (region.direct .cte).map w.cteBinding) {i : ℕ}
    (hi : i < (region.direct .cte).length) {cte body : Node}
    (hcte : cte ∈ region.direct .cte) (hbody : Node.cteBody cte = some body)
    {inner : Scope} {field : Node} {levels : List Level}
    (h : Seen body
      (⟨((region.direct .cte).map w.cteBinding).take i, []⟩ :: outer) inner
      field levels) :
    Seen region outer scope field levels := by
  have hmem := SpanTree.mem_subtrees_of_mem_descendants
    (Node.mem_descendants_of_cteBody hcte hbody)
  refine ⟨(List.suffix_cons _ _).trans h.suffix,
    SpanTree.mem_subtrees_trans hmem h.subtree, ?_⟩
  intro offset byte _ _ _ _
  obtain ⟨own, rfl⟩ := h.suffix
  refine iff_of_false (not_agrees_of_frame_ne ?_) (not_not_intro ?_)
  · intro hframe
    have hlength := congrArg (fun frame => frame.ctes.length) hframe
    simp only [Scope.frame, Level.frame, hctes, List.length_take,
      List.length_map] at hlength
    omega
  · exact ⟨body, Node.mem_bodiesWithin_iff.2
      (.inl (Node.mem_bodies_of_cteBody herror hcte hbody)),
      (hordered.of_mem_subtrees hmem).within h.subtree⟩

/-- The scope of the clauses of a region or a side. -/
theorem scope_walkParts (group : Node.Group) (range : ByteRange)
    (ctes : List Binding) (owner : Option Node) (outer : List Level) :
    (w.walkParts w.walkRegion group.siblings group.parts range ctes owner
      outer).scope =
      w.groupScope group range ctes outer
        ((cteBodyWalks w.walkRegion owner ctes outer).map Walk.scope) := by
  rw [walkParts, groupScope, groupLevel]
  simp only [List.map_append]

/-- A reference that the clauses of a side see, the region sees below the frame of
its CTEs. -/
theorem seen_of_side (hordered : region.Ordered)
    (herror : region.kind ≠ .error) (hsides : region.hasSides)
    {outer : List Level} {op : Node} (hop : op ∈ region.operations)
    {side : List Node} (hside : side ∈ setOperationSides op) {part : Node}
    (hpart : part ∈ side) (hkind : SpanTree.kind part ≠ .cte) {field : Node}
    (hfield : field ∈ part.subtrees) {levels : List Level}
    (h : Seen region (⟨(region.direct .cte).map w.cteBinding, []⟩ :: outer)
      (w.walkParts w.walkRegion op.children side (partsRange side) [] none
        (⟨(region.direct .cte).map w.cteBinding, []⟩ :: outer)).scope field
      levels) :
    Seen region outer (w.walkSetOperation w.walkRegion region
      ((region.direct .cte).map w.cteBinding) outer
      (region.direct .setOperation)).scope field levels := by
  have hgroups : ∀ {op : Node}, op ∈ region.operations → ∀ {side : List Node},
      side ∈ setOperationSides op →
        (⟨op.children, side⟩ : Node.Group) ∈ region.groups := by
    intro op hop side hside
    rw [Node.groups, if_neg herror, if_pos hsides]
    exact List.mem_flatMap.2 ⟨op, hop, List.mem_map_of_mem hside⟩
  have hhosts : region.hosts = region.operations := if_pos hsides
  refine ⟨(List.suffix_cons _ _).trans h.suffix, h.subtree, ?_⟩
  intro offset byte hcovers hle hge hreach
  have hopOrdered := Node.ordered_of_mem_hosts hordered (by rwa [hhosts])
  have hchild := mem_children_of_mem_side hside hpart
  have hbyte : SpanTree.Covers part byte :=
    hcovers.mono ((hopOrdered.of_mem_children hchild).within hfield)
  have hsideByte := Node.covers_side hopOrdered hside hpart hbyte
  have hopCovers := Node.covers_host hordered (by rwa [hhosts]) hchild hbyte
  -- a side that contains the offset is this one
  have hunique : ∀ op' ∈ region.operations, ∀ side' ∈ setOperationSides op',
      (partsRange side').start ≤ offset → offset ≤ (partsRange side').stop →
        op' = op ∧ side' = side := by
    intro op' hop' side' hside' hstart hstop
    have hbyte' := hreach _
      (Node.side_mem_scopeRanges hsides (hgroups hop' hside')) hstart hstop
    have hordered' := Node.ordered_of_mem_hosts hordered (by rwa [hhosts])
    have hcovers' : SpanTree.Covers op' byte := by
      obtain ⟨first, hfirst, last, hlast, hrange⟩ := Node.exists_ends
        (Node.ne_nil_of_mem_sidesFrom hside' (by simp))
      rw [hrange] at hbyte'
      have hself := hordered' op' (SpanTree.self_mem_subtrees op')
      exact ⟨Nat.le_trans
        (hself.within first (mem_children_of_mem_side hside' hfirst)).1
          hbyte'.1, Nat.lt_of_lt_of_le hbyte'.2
        (hself.within last (mem_children_of_mem_side hside' hlast)).2⟩
    obtain rfl := Node.host_eq_of_covers hordered (by rwa [hhosts])
      (by rwa [hhosts]) hopCovers hcovers'
    exact ⟨rfl, Node.side_eq_of_shared_byte hopOrdered hside' hside hbyte'
      hsideByte⟩
  have hfound : Scope.descend offset
      (w.walkSetOperation w.walkRegion region
        ((region.direct .cte).map w.cteBinding) outer
        (region.direct .setOperation)).scope.children =
      some (Scope.chain offset
        (w.walkParts w.walkRegion op.children side (partsRange side) [] none
          (⟨(region.direct .cte).map w.cteBinding, []⟩ :: outer)).scope) := by
    apply Scope.descend_eq_some
    · refine List.mem_map_of_mem (List.mem_append_right _
        (List.mem_flatMap.2 ⟨op, hop, List.mem_map_of_mem hside⟩))
    · exact decide_eq_true ⟨Nat.le_trans hsideByte.1 hle,
        Nat.le_trans hge hsideByte.2⟩
    · intro t ht hcontains
      obtain ⟨walk, hwalk, rfl⟩ := List.mem_map.1 ht
      rcases List.mem_append.1 hwalk with hbody | hwalk
      · obtain ⟨body, hbody, hrange⟩ := range_of_bodyScope herror _ _ walk.scope
          (List.mem_map_of_mem hbody)
        obtain ⟨cte, hcte, hcovers'⟩ := Node.exists_cte_of_covers hordered hbody
          (covers_of_contains (Node.mem_innerRegions_iff.2 (.inl hbody)) hrange
            hreach hcontains)
        exact absurd hcovers' (Node.not_covers_cte hordered (hgroups hop hside)
          hpart hkind hbyte hcte)
      · obtain ⟨op', hop', hwalk⟩ := List.mem_flatMap.1 hwalk
        obtain ⟨side', hside', rfl⟩ := List.mem_map.1 hwalk
        obtain ⟨hstart, hstop⟩ := of_decide_eq_true hcontains
        obtain ⟨rfl, rfl⟩ := hunique op' hop' side' hside' hstart hstop
        rfl
  have hframe : (w.walkSetOperation w.walkRegion region
      ((region.direct .cte).map w.cteBinding) outer
      (region.direct .setOperation)).scope.frame =
        Level.frame ⟨(region.direct .cte).map w.cteBinding, []⟩ := rfl
  rw [agrees_iff_of_descend_eq_some hframe hfound]
  exact h.agrees_iff hcovers hle hge hreach

/-- A reference that a group of clauses sees, the region sees. -/
theorem seen_of_group (hordered : region.Ordered) {group : Node.Group}
    (hgroup : group ∈ region.groups) {part : Node} (hpart : part ∈ group.parts)
    (hkind : SpanTree.kind part ≠ .cte) {field : Node}
    (hfield : field ∈ part.subtrees) {outer levels : List Level}
    (h : ∀ range bodies,
      (∀ t ∈ bodies, ∃ body ∈ region.bodies, t.range = Node.range body) →
        Seen region (w.groupOuter region outer)
          (w.groupScope group range (w.groupCtes region)
            (w.groupOuter region outer) bodies) field levels) :
    Seen region outer (w.walkRegion region outer).scope field levels := by
  have herror : region.kind ≠ .error := by
    intro herror
    rw [Node.groups, if_pos herror] at hgroup
    cases hgroup
  rw [Node.groups, if_neg herror] at hgroup
  rw [walkRegion_eq]
  by_cases hsides : region.hasSides
  · rw [if_pos hsides] at hgroup
    obtain ⟨op, hop, hside⟩ := List.mem_flatMap.1 hgroup
    obtain ⟨side, hmem, rfl⟩ := List.mem_map.1 hside
    rw [walkRegionWith_sides w herror hsides]
    have hseen := h (partsRange side) [] (List.forall_mem_nil _)
    rw [groupOuter, groupCtes, if_pos hsides, if_pos hsides] at hseen
    have hscope := scope_walkParts (w := w) ⟨op.children, side⟩
      (partsRange side) [] none
      (⟨(region.direct .cte).map w.cteBinding, []⟩ :: outer)
    rw [cteBodyWalks_none, List.map_nil] at hscope
    rw [← hscope] at hseen
    exact seen_of_side hordered herror hsides hop hmem hpart hkind hfield hseen
  · rw [if_neg hsides, List.mem_singleton] at hgroup
    subst hgroup
    rw [walkRegionWith_parts w herror hsides]
    have hseen := h region.range _ (range_of_bodyScope (w := w) herror
      ((region.direct .cte).map w.cteBinding) outer)
    rw [groupOuter, groupCtes, if_neg hsides, if_neg hsides] at hseen
    have hscope := scope_walkParts (w := w)
      ⟨region.children, region.children⟩ region.range
      ((region.direct .cte).map w.cteBinding) (some region) outer
    rwa [← hscope] at hseen

/-- The references of a region are seen as the scopes of the region tell. -/
theorem seen_of_mem_events (w : Walker Id) (region : Node)
    (outer : List Level) (hordered : region.Ordered)
    (hplain : region.PlainFields) {field : Node} {levels : List Level}
    (h : Event.resolve field levels ∈ (w.walkRegion region outer).events) :
    Seen region outer (w.walkRegion region outer).scope field levels := by
  induction region using SpanTree.induction_descendants generalizing outer with
  | h region ih =>
    have hinner : ∀ sub ∈ region.descendants, ∀ {levels' : List Level},
        Event.resolve field levels ∈ (w.walkRegion sub levels').events →
          Seen sub levels' (w.walkRegion sub levels').scope field levels := by
      intro sub hsub levels' h
      have hmem := SpanTree.mem_subtrees_of_mem_descendants hsub
      exact ih sub hsub levels' (hordered.of_mem_subtrees hmem)
        (fun node hnode => hplain node (SpanTree.mem_subtrees_trans hmem hnode)) h
    rcases mem_walkRegion_iff.1 h with
      (⟨-, hnode⟩ | ⟨group, hgroup, he⟩) |
        ⟨herror, i, cte, body, hcte, hbody, he⟩ |
        ⟨group, hgroup, part, hpart, sub, hsub, he⟩
    · cases hnode
    · -- a clause of the region
      rw [groupEvents, List.mem_append, List.mem_flatMap] at he
      rcases he with hbound | ⟨part, hpart, hresolve⟩
      · obtain ⟨source, -, hsource⟩ := List.mem_map.1 hbound
        cases hsource
      · have hfield := (resolve_mem_resolvePart hresolve).2
        exact seen_of_group hordered hgroup hpart
          (Node.kind_ne_cte_of_mem_fields hfield)
          (Node.mem_subtrees_of_mem_fields hfield) fun range bodies hbodies =>
            seen_of_resolvePart hordered hgroup hbodies hplain hpart hresolve
    · -- the body of a CTE
      have hmem := List.mem_of_getElem? hcte
      exact seen_of_body hordered herror (walkRegion_ctes herror outer)
        (List.getElem?_eq_some_iff.1 hcte).1 hmem hbody
        (hinner body (Node.mem_descendants_of_cteBody hmem hbody) he)
    · -- a region inside a clause
      have hdescendant := Node.mem_descendants_of_mem_innerRegions
        (Node.mem_innerRegions_of_mem_partRegions hgroup hpart hsub)
      have hseen := hinner sub hdescendant he
      exact seen_of_group hordered hgroup hpart
        (Node.kind_ne_cte_of_mem_partRegions hsub)
        (SpanTree.mem_subtrees_trans
          (Node.mem_subtrees_of_mem_partRegions hsub) hseen.subtree)
        fun range bodies hbodies =>
          seen_of_partRegion hordered hgroup hbodies hpart hsub hseen

end Region

/-! ## References of a text -/

/-- The analysis and the editor features see the same sources at an offset: the
frames of the one are the scopes of the other, and all find the same source by a
qualifier. -/
structure SameSources (w : Walker Id) (root : Node) (buffer : Buffer)
    (levels : List Level) (offset : ℕ) : Prop where
  frames : levels.map Level.frame =
    ((w.analyzeNow root).scopeChain offset).reverse.map Scope.frame
  completion : ∀ qualifier,
    lookupQualifier (levels.map Level.frame) qualifier =
      lookupQualifier
        ((frameChain (w.analyzeNow root) buffer offset).map Scope.frame)
        qualifier
  hover : ∀ qualifier,
    lookupQualifier (levels.map Level.frame) qualifier =
      ((w.analyzeNow root).scopeChain offset).reverse.findSome?
        (·.qualifierBinding qualifier)

section Root

variable {w : Walker Id} {root statement : Node}
  (hordered : SpanTree.Ordered root)
  (hstatement : statement ∈ statements root) {offset byte : ℕ}
  (hcovers : SpanTree.Covers statement byte) (hle : byte ≤ offset)
  (hge : offset ≤ byte + 1)
  (hreach : Node.ReachedThrough root.statementRanges offset byte)

include hordered hstatement hcovers hle hge hreach

theorem scopeChain_eq :
    (w.analyzeNow root).scopeChain offset =
      Scope.chain offset (w.walkRegion statement []).scope := by
  have hfound : Scope.descend offset (w.analyzeNow root).scopes =
      some (Scope.chain offset (w.walkRegion statement []).scope) := by
    apply Scope.descend_eq_some
    · exact List.mem_map.2 ⟨statement, hstatement, rfl⟩
    · exact Scope.contains_of_covers (walkRegion_range w statement []) hcovers
        hle hge
    · intro t ht hcontains
      obtain ⟨other, hother, rfl⟩ := List.mem_map.1 ht
      rw [Scope.contains, walkRegion_range] at hcontains
      obtain ⟨hstart, hstop⟩ := of_decide_eq_true hcontains
      rw [Node.statement_eq_of_reaches hordered hstatement hother hcovers hreach
        hstart hstop]
  rw [Analysis.scopeChain, hfound]
  rfl

/-- The last statement that begins before the offset is the one that reaches
it. -/
theorem lastBefore_eq_statement {scope : Scope}
    (h : (w.analyzeNow root).lastBefore offset = some scope) :
    scope = (w.walkRegion statement []).scope := by
  have hscopes : (w.analyzeNow root).scopes.filter (Scope.startsBefore offset) =
      ((statements root).filter fun region =>
        decide (SpanTree.start region ≤ offset)).map fun region =>
          (w.walkRegion region []).scope := by
    rw [analyzeNow, List.filter_map]
    congr 2
    funext region
    rw [Function.comp, Scope.startsBefore, walkRegion_range]
    rfl
  rw [lastBefore_eq, hscopes, List.getLast?_map] at h
  obtain ⟨last, hlast, rfl⟩ := Option.map_eq_some_iff.1 h
  obtain ⟨before, hbefore⟩ := List.getLast?_eq_some_iff.1 hlast
  have hpairs : (before ++ [last]).Pairwise fun a b =>
      SpanTree.stop a ≤ SpanTree.start b := by
    rw [← hbefore]
    have hsiblings :=
      (hordered root (SpanTree.self_mem_subtrees root)).siblings
    exact hsiblings.sublist (List.filter_sublist.trans
      (List.filter_sublist.trans
        (List.filter_sublist.trans List.filter_sublist)))
  have hmem : last ∈ (statements root).filter fun region =>
      decide (SpanTree.start region ≤ offset) := by
    rw [hbefore]
    simp
  obtain ⟨hlastStatement, hstart⟩ := List.mem_filter.1 hmem
  have hstatementMem : statement ∈ before ++ [last] := by
    rw [← hbefore]
    exact List.mem_filter.2
      ⟨hstatement, decide_eq_true (Nat.le_trans hcovers.1 hle)⟩
  rcases List.mem_append.1 hstatementMem with hearlier | hsame
  · -- a later statement begins behind the byte
    have hstop := (List.pairwise_append.1 hpairs).2.2 statement hearlier last
      (by simp)
    have hspan := (hordered.of_mem_children
      (Node.mem_children_of_mem_statements hlastStatement) last
        (SpanTree.self_mem_subtrees last)).start_le_stop
    have hbyte := hcovers.2
    have hstart' : SpanTree.start last ≤ offset := of_decide_eq_true hstart
    rw [Node.statement_eq_of_reaches hordered hstatement hlastStatement hcovers
      hreach hstart' (by omega)]
  · rw [List.mem_singleton.1 hsame]

end Root

theorem lookupQualifier_scopes (scopes : List Scope) (qualifier : Text) :
    lookupQualifier (scopes.map Scope.frame) qualifier =
      scopes.findSome? (·.qualifierBinding qualifier) := by
  rw [lookupQualifier, List.findSome?_map]
  congr 1
  funext scope
  rw [Function.comp, Frame.qualifier, Scope.qualifierBinding,
    List.find?_append]
  rfl

/-- Scopes without sources answer no qualifier. -/
theorem lookupQualifier_eq_none {scopes : List Scope}
    (h : ∀ scope ∈ scopes, scope.bindings = [] ∧ scope.ctes = [])
    (qualifier : Text) :
    lookupQualifier (scopes.map Scope.frame) qualifier = none := by
  rw [lookupQualifier_scopes, List.findSome?_eq_none_iff]
  intro scope hscope
  rw [Scope.qualifierBinding, (h scope hscope).1, (h scope hscope).2]
  rfl

/-- The frames decide what the sources are. -/
theorem sameSources_of_frames {w : Walker Id} {root statement : Node}
    (hordered : SpanTree.Ordered root)
    (hstatement : statement ∈ statements root) {offset byte : ℕ}
    (hcovers : SpanTree.Covers statement byte) (hle : byte ≤ offset)
    (hge : offset ≤ byte + 1)
    (hreach : Node.ReachedThrough root.statementRanges offset byte)
    (buffer : Buffer) {levels : List Level}
    (h : levels.map Level.frame =
      ((w.analyzeNow root).scopeChain offset).reverse.map Scope.frame) :
    SameSources w root buffer levels offset := by
  refine ⟨h, ?_, ?_⟩
  · intro qualifier
    rw [h, frameChain]
    split
    · next hempty =>
        have hnone : ∀ scope ∈ ((w.analyzeNow root).scopeChain offset).reverse,
            scope.bindings = [] ∧ scope.ctes = [] := by
          intro scope hscope
          have hscopeEmpty := List.all_eq_true.1 hempty scope hscope
          rwa [Bool.and_eq_true, List.isEmpty_iff, List.isEmpty_iff]
            at hscopeEmpty
        split
        · next scope hlast =>
            split
            · rfl
            · -- the statement that is taken is one of the chain
              rw [lookupQualifier_eq_none hnone]
              refine (lookupQualifier_eq_none ?_ qualifier).symm
              intro scope' hscope'
              rw [List.mem_singleton.1 hscope', lastBefore_eq_statement hordered
                hstatement hcovers hle hge hreach hlast]
              apply hnone
              rw [scopeChain_eq hordered hstatement hcovers hle hge hreach,
                Scope.chain_eq]
              simp
        · rfl
    · rfl
  · intro qualifier
    rw [h, lookupQualifier_scopes]

/-- At a column reference the analysis and the editor features see the same
sources if and only if the reference does not lie in the body of a CTE. -/
theorem sameSources_iff (w : Walker Id) (root : Node)
    (hordered : SpanTree.Ordered root) (hplain : root.PlainFields)
    (buffer : Buffer) {field : Node} {levels : List Level}
    (h : Event.resolve field levels ∈ w.events root) {offset : ℕ}
    (hoffset : Node.HasOffset root.statementRanges field offset) :
    SameSources w root buffer levels offset ↔ ¬root.LiesInCteBody field := by
  obtain ⟨byte, hcovers, hle, hge, hreach⟩ := hoffset
  obtain ⟨statement, hregion, he⟩ := List.mem_flatMap.1 h
  rw [rootEvents] at he
  split at he
  · cases List.mem_singleton.1 he
  · next herror =>
      have hstatement : statement ∈ statements root :=
        List.mem_filter.2 ⟨hregion, by simpa using herror⟩
      have hchild := Node.mem_children_of_mem_statements hstatement
      have hord := hordered.of_mem_children hchild
      have hseen := seen_of_mem_events w statement [] hord
        (fun node hnode =>
          hplain node (SpanTree.mem_subtrees_of_child hchild hnode)) he
      have hbyte := hcovers.mono (hord.within hseen.subtree)
      have hbody : root.LiesInCteBody field ↔ statement.InCteBody field := by
        constructor
        · rintro ⟨other, hother, body, hbody, hwithin⟩
          have hotherChild := Node.mem_children_of_mem_statements hother
          have hotherOrd := hordered.of_mem_children hotherChild
          obtain rfl := hordered.eq_of_covers hotherChild hchild
            ((hcovers.mono hwithin).mono (hotherOrd.within
              (Node.mem_subtrees_of_mem_bodiesWithin hbody))) hbyte
          exact ⟨body, hbody, hwithin⟩
        · exact fun hbody => ⟨statement, hstatement, hbody⟩
      have hagrees := hseen.agrees_iff hcovers hle hge fun range hrange =>
        hreach range (List.mem_flatMap.2 ⟨statement, hstatement, hrange⟩)
      rw [hbody, ← hagrees, Agrees, List.map_nil, List.append_nil,
        ← scopeChain_eq hordered hstatement hbyte hle hge hreach]
      exact ⟨SameSources.frames, sameSources_of_frames hordered hstatement hbyte
        hle hge hreach buffer⟩

end Walker

end Walks

/-! ## A reference in the body of a CTE -/

/-- The column reference of an event, with its levels. -/
def Event.reference : Event → Option (Node × List Level)
  | .resolve field levels => some (field, levels)
  | _ => none

theorem Event.resolve_mem_of_reference {events : List Event}
    {r : Node × List Level} (h : r ∈ events.filterMap Event.reference) :
    Event.resolve r.1 r.2 ∈ events := by
  obtain ⟨e, he, href⟩ := List.mem_filterMap.1 h
  cases e with
  | resolve field levels =>
      obtain rfl := Option.some.inj href
      exact he
  | syntaxError node => cases href
  | bound source => cases href

instance (ranges : List ByteRange) (offset byte : ℕ) :
    Decidable (Node.ReachedThrough ranges offset byte) :=
  inferInstanceAs (Decidable (∀ range ∈ ranges, _ → _ → _))

instance (node : Node) (byte : ℕ) : Decidable (SpanTree.Covers node byte) :=
  inferInstanceAs (Decidable (_ ∧ _))

section Sample

local instance asciiScopes : Unicode := Unicode.ascii

/-- `with a as (select x.id from x) select 1 from users x` -/
def besideBody : Node :=
  .node (.other "program") 0 52
    [.node .statement 0 52
      [.leaf (.keyword "with") 0 4,
        .node .cte 5 30
          [.leaf .identifier 5 6, .leaf .keywordAs 7 9, .leaf .openParen 10 11,
            .node .statement 11 29
              [.node .select 11 22
                [.leaf (.keyword "select") 11 17,
                  .node .selectExpression 18 22
                    [.node .term 18 22
                      [.node .field 18 22
                        [.node .objectReference 18 19
                            [.leaf .identifier 18 19],
                          .leaf .identifier 20 22]]]],
                .node .fromClause 23 29
                  [.leaf (.keyword "from") 23 27,
                    .node .relation 28 29
                      [.node .objectReference 28 29
                        [.leaf .identifier 28 29]]]],
            .leaf .closeParen 29 30],
        .node .select 31 39
          [.leaf (.keyword "select") 31 37,
            .node .selectExpression 38 39
              [.node .term 38 39 [.leaf .literal 38 39]]],
        .node .fromClause 40 52
          [.leaf (.keyword "from") 40 44,
            .node .relation 45 52
              [.node .objectReference 45 50 [.leaf .identifier 45 50],
                .leaf .identifier 51 52]]]]

def besideBodyText : Text :=
  "with a as (select x.id from x) select 1 from users x".toList

/-- In the body of the CTE the editor features see the relation `users x` of the
statement, and the analysis does not. -/
theorem sources_differ_in_body :
    ¬∀ {field levels}, Event.resolve field levels ∈
        Walker.events ⟨besideBodyText, usersCatalog⟩ besideBody →
      ∀ {offset}, Node.HasOffset besideBody.statementRanges field offset →
        Walker.SameSources ⟨besideBodyText, usersCatalog⟩ besideBody
          (.new 1 besideBodyText) levels offset := by
  intro h
  have hframes : ∀ r ∈ (Walker.events ⟨besideBodyText, usersCatalog⟩
      besideBody).filterMap Event.reference, r.2.map Level.frame =
        ((Walker.analyzeNow ⟨besideBodyText, usersCatalog⟩
          besideBody).scopeChain 19).reverse.map Scope.frame := by
    have hcovers : ∀ r ∈ (Walker.events ⟨besideBodyText, usersCatalog⟩
        besideBody).filterMap Event.reference, SpanTree.Covers r.1 18 := by
      decide +kernel
    intro r hr
    exact (h (Event.resolve_mem_of_reference hr)
      ⟨18, hcovers r hr, by decide, by decide, by decide +kernel⟩).frames
  revert hframes
  decide +kernel

/-- In `select x from users, nosuch` both see the same sources at `x`. -/
theorem sameSources_beside_nosuch :
    (Walker.events ⟨besideNosuchText, usersCatalog⟩
        besideNosuch).filterMap Event.reference ≠ [] ∧
      ∀ r ∈ (Walker.events ⟨besideNosuchText, usersCatalog⟩
          besideNosuch).filterMap Event.reference,
        Walker.SameSources ⟨besideNosuchText, usersCatalog⟩ besideNosuch
          (.new 1 besideNosuchText) r.2 8 := by
  have hcovers : ∀ r ∈ (Walker.events ⟨besideNosuchText, usersCatalog⟩
      besideNosuch).filterMap Event.reference,
        SpanTree.Covers r.1 7 ∧ ¬besideNosuch.LiesInCteBody r.1 := by
    decide +kernel
  refine ⟨by decide +kernel, ?_⟩
  intro r hr
  exact (Walker.sameSources_iff ⟨besideNosuchText, usersCatalog⟩ besideNosuch
    (by decide +kernel) (by decide +kernel) (.new 1 besideNosuchText)
    (Event.resolve_mem_of_reference hr)
    ⟨7, (hcovers r hr).1, by decide, by decide, by decide +kernel⟩).2
      (hcovers r hr).2

end Sample

end Tempr.Intel
