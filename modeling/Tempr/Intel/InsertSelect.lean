import Tempr.Intel.BareReferences
import Tempr.Intel.Isolation

/-!
# `INSERT ... SELECT`

In the tree the clauses of the query that an `INSERT` takes its rows from are
children of the `insert` node.  Its target is collected as one more source beside
those of the query, so that the columns of the target are in sight of the bare
references of the query.

What this changes is compared with the walk of the same region where the clauses
of the query stand in the place of the `INSERT`: after the same `WITH` or
`EXPLAIN`, and inside the same levels.
-/

namespace Tempr.Intel

open Tempr.Support
open Tempr.Editor (ByteRange Rope)

/-! ## The trees -/

/-- What the walk of a region goes through on its way to a statement. -/
def NodeKind.encloses : NodeKind → Bool
  | .statement => true
  | .transaction => true
  | .block => true
  | .other _ => true
  | _ => false

/-- A node around some clauses, with what stands before and after them. -/
structure Enclosing where
  kind : NodeKind
  range : ByteRange
  before : List Node
  after : List Node
  encloses : kind.encloses = true

namespace Enclosing

def around (e : Enclosing) (clauses : List Node) : Node :=
  .node e.kind e.range.start e.range.stop (e.before ++ (clauses ++ e.after))

/-- The region with the clauses in its innermost place; `outside` lists what is
around that place from the outside. -/
def region (outside : List Enclosing) (place : Enclosing)
    (clauses : List Node) : Node :=
  outside.foldr (fun e node => e.around [node]) (place.around clauses)

variable (outside : List Enclosing) (place : Enclosing)

theorem encloses_region (clauses : List Node) :
    (SpanTree.kind (region outside place clauses)).encloses = true := by
  cases outside with
  | nil => exact place.encloses
  | cons e _ => exact e.encloses

theorem kind_region_ne {kind : NodeKind} (h : kind.encloses = false)
    (clauses : List Node) :
    SpanTree.kind (region outside place clauses) ≠ kind :=
  NodeKind.ne_of_flag (encloses_region outside place clauses) h

/-- What is beside the clauses in the region. -/
def beside : List Node :=
  place.before ++ place.after ++ outside.flatMap fun e => e.before ++ e.after

/-- The node of the region itself. -/
def top : Enclosing := outside.head?.getD place

/-- Clauses without a kind leave the children of that kind as they are. -/
theorem direct_region {kind : NodeKind} (hkind : kind.encloses = false)
    {clauses : List Node} (h : ∀ part ∈ clauses, SpanTree.kind part ≠ kind) :
    (region outside place clauses).direct kind =
      ((top outside place).before ++ (top outside place).after).filter
        fun part => SpanTree.kind part = kind := by
  have haround : ∀ (e : Enclosing) {clauses : List Node},
      (∀ part ∈ clauses, SpanTree.kind part ≠ kind) →
      (e.around clauses).direct kind =
        (e.before ++ e.after).filter fun part => SpanTree.kind part = kind := by
    intro e clauses h
    have hnone : (clauses.filter fun part => SpanTree.kind part = kind) = [] :=
      List.filter_eq_nil_iff.2 fun part hpart => by simpa using h part hpart
    change (e.before ++ (clauses ++ e.after)).filter _ = _
    rw [List.filter_append, List.filter_append, hnone, List.nil_append,
      List.filter_append]
  cases outside with
  | nil => exact haround place h
  | cons e outside =>
      refine haround e fun part hpart => ?_
      rw [List.mem_singleton.1 hpart]
      exact kind_region_ne outside place hkind clauses

end Enclosing

/-- An `INSERT` that takes its rows from a query, and where it stands in the
region that is walked.  Beside the query it has no source but the target, and no
`DELETE` and no set operation stand beside it. -/
structure InsertSelect where
  /-- keywords, the target and the names of its columns -/
  head : List Node
  /-- the clauses of the query -/
  query : List Node
  /-- the clauses of the `INSERT` that follow the query -/
  tail : List Node
  insertRange : ByteRange
  /-- the statement, with its `WITH` or `EXPLAIN` before the `INSERT` -/
  place : Enclosing
  /-- what holds the statement in its region, from the outside -/
  outside : List Enclosing
  beside_free : ∀ part ∈ head ++ tail,
    SpanTree.visitIn Node.sourceStep (head ++ (query ++ tail)) part = []
  no_delete : ∀ part ∈ head ++ (query ++ tail) ++ (place.before ++ place.after),
    SpanTree.kind part ≠ .delete
  no_sides : ∀ part ∈ (Enclosing.top outside place).before ++
      (Enclosing.top outside place).after,
    SpanTree.kind part ≠ .setOperation

namespace InsertSelect

variable (i : InsertSelect)

def insert : Node :=
  .node .insert i.insertRange.start i.insertRange.stop
    (i.head ++ (i.query ++ i.tail))

@[simp] theorem kind_insert : SpanTree.kind i.insert = .insert := rfl

/-- The region with the `INSERT`. -/
def region : Node := Enclosing.region i.outside i.place [i.insert]

/-- The region with the query as a statement of its own. -/
def alone : Node := Enclosing.region i.outside i.place i.query

/-- The query is a `SELECT` without a `WITH` of its own, and no set operation. -/
def Plain : Prop :=
  ∀ part ∈ i.query, SpanTree.kind part ≠ .cte ∧ SpanTree.kind part ≠ .setOperation

instance : Decidable i.Plain :=
  inferInstanceAs (Decidable (∀ part ∈ _, _ ∧ _))

/-- The children of the region of a kind are the same with the `INSERT` as with
its query. -/
theorem direct_alone {kind : NodeKind} (hkind : kind.encloses = false)
    (hinsert : kind ≠ .insert)
    (h : ∀ part ∈ i.query, SpanTree.kind part ≠ kind) :
    i.alone.direct kind = i.region.direct kind := by
  rw [alone, region, Enclosing.direct_region _ _ hkind h,
    Enclosing.direct_region _ _ hkind]
  intro part hpart
  rw [List.mem_singleton.1 hpart, kind_insert]
  exact hinsert.symm

theorem direct_setOperation {clauses : List Node}
    (h : ∀ part ∈ clauses, SpanTree.kind part ≠ .setOperation) :
    (Enclosing.region i.outside i.place clauses).direct .setOperation = [] := by
  rw [Enclosing.direct_region _ _ rfl h, List.filter_eq_nil_iff]
  intro part hpart
  simpa using i.no_sides part hpart

end InsertSelect

namespace Walker

section

variable {Id : Type} [DecidableEq Id] [Unicode] {w : Walker Id}
  {i : InsertSelect} {outer : List Level}

/-- The level of a region that is no set operation. -/
def regionLevel (w : Walker Id) (region : Node) (outer : List Level) : Level :=
  w.groupLevel ⟨region.children, region.children⟩
    ((region.direct .cte).map w.cteBinding) outer

/-- The source that the target of the `INSERT` is, if its name resolves. -/
def target (w : Walker Id) (i : InsertSelect) (outer : List Level) :
    Option Binding :=
  (i.insert.direct .objectReference).head?.bind fun node =>
    (w.bindTarget ((i.region.direct .cte).map w.cteBinding)
      (outer.map Level.frame) node none).binding

/-! ## The level of the `INSERT` -/

section Sources

variable (ctes : List Binding) (frames : List Frame)

theorem phaseA_siblings {siblings siblings' : List Node}
    (h : isDeleteTargetClause siblings = isDeleteTargetClause siblings')
    (node : Node) :
    SpanTree.visitIn (w.phaseA ctes frames) siblings node =
      SpanTree.visitIn (w.phaseA ctes frames) siblings' node := by
  have hphase : w.phaseA ctes frames siblings node =
      w.phaseA ctes frames siblings' node := by
    rw [phaseA, phaseA, h]
  rw [SpanTree.visitIn_eq, SpanTree.visitIn_eq, hphase]

omit [Unicode] in
theorem isDeleteTargetClause_of_no_delete {parts : List Node}
    (h : ∀ part ∈ parts, SpanTree.kind part ≠ .delete) :
    isDeleteTargetClause parts = false := by
  rw [isDeleteTargetClause, List.any_eq_false]
  intro part hpart
  simpa using h part hpart

/-- The sources at the clauses, if no `DELETE` is among them. -/
def clauseSources (w : Walker Id) (clauses : List Node) : List Source :=
  clauses.flatMap (SpanTree.visitIn (w.phaseA ctes frames) [])

theorem clauseSources_eq {siblings clauses : List Node}
    (h : ∀ part ∈ siblings, SpanTree.kind part ≠ .delete) :
    clauses.flatMap (SpanTree.visitIn (w.phaseA ctes frames) siblings) =
      w.clauseSources ctes frames clauses := by
  apply List.flatMap_congr
  intro part _
  exact phaseA_siblings ctes frames (isDeleteTargetClause_of_no_delete h) part

/-- The sources in a node that encloses others. -/
def nodeSources (w : Walker Id) (node : Node) : List Source :=
  node.children.flatMap (SpanTree.visitIn (w.phaseA ctes frames) node.children)

theorem visitIn_encloses {node : Node} (h : node.kind.encloses = true)
    (siblings : List Node) :
    SpanTree.visitIn (w.phaseA ctes frames) siblings node =
      w.nodeSources ctes frames node := by
  have hphase : w.phaseA ctes frames siblings node = ([], true) := by
    rw [phaseA]
    cases hkind : node.kind <;> rw [hkind] at h <;> first | rfl | cases h
  rw [SpanTree.visitIn_eq, hphase]
  rfl

/-- The sources of the clauses are collected between those before and after them,
which do not depend on the clauses. -/
theorem nodeSources_region (w : Walker Id) (outside : List Enclosing)
    (place : Enclosing)
    (hplace : ∀ part ∈ place.before ++ place.after,
      SpanTree.kind part ≠ .delete) :
    ∃ before after, ∀ clauses : List Node,
      (∀ part ∈ clauses, SpanTree.kind part ≠ .delete) →
      w.nodeSources ctes frames (Enclosing.region outside place clauses) =
        before ++ (w.clauseSources ctes frames clauses ++ after) := by
  induction outside with
  | nil =>
      refine ⟨w.clauseSources ctes frames place.before,
        w.clauseSources ctes frames place.after, fun clauses hclauses => ?_⟩
      have hsiblings : ∀ part ∈ place.before ++ (clauses ++ place.after),
          SpanTree.kind part ≠ .delete := by
        intro part hpart
        rcases List.mem_append.1 hpart with hpart | hpart
        · exact hplace part (List.mem_append_left _ hpart)
        · rcases List.mem_append.1 hpart with hpart | hpart
          · exact hclauses part hpart
          · exact hplace part (List.mem_append_right _ hpart)
      change (place.before ++ (clauses ++ place.after)).flatMap
        (SpanTree.visitIn _ (place.before ++ (clauses ++ place.after))) = _
      rw [clauseSources_eq ctes frames hsiblings, clauseSources,
        List.flatMap_append, List.flatMap_append]
      rfl
  | cons e outside ih =>
      obtain ⟨before, after, ih⟩ := ih
      let siblings := e.before ++ e.after
      let visit := SpanTree.visitIn (w.phaseA ctes frames) siblings
      refine ⟨e.before.flatMap visit ++ before, after ++ e.after.flatMap visit,
        fun clauses hclauses => ?_⟩
      have hkind := Enclosing.encloses_region outside place clauses
      have hsiblings : isDeleteTargetClause (e.before ++
          ([Enclosing.region outside place clauses] ++ e.after)) =
            isDeleteTargetClause siblings := by
        have hdelete : SpanTree.kind (Enclosing.region outside place clauses) ≠
            .delete := Enclosing.kind_region_ne outside place rfl clauses
        simp [isDeleteTargetClause, siblings, hdelete]
      change (e.before ++ ([Enclosing.region outside place clauses]
        ++ e.after)).flatMap (SpanTree.visitIn _ (e.before ++
          ([Enclosing.region outside place clauses] ++ e.after))) = _
      rw [List.flatMap_congr fun part _ =>
          phaseA_siblings ctes frames hsiblings part,
        List.flatMap_append, List.flatMap_append, List.flatMap_singleton,
        visitIn_encloses ctes frames hkind, ih clauses hclauses]
      simp only [List.append_assoc]
      rfl

/-- The target comes before the sources of the query. -/
theorem clauseSources_insert (w : Walker Id) (i : InsertSelect) :
    w.clauseSources ctes frames [i.insert] =
      w.dmlTarget ctes frames i.insert ++
        w.clauseSources ctes frames i.query := by
  have hbeside : ∀ parts : List Node,
      (∀ part ∈ parts, part ∈ i.head ++ i.tail) →
      parts.flatMap (SpanTree.visitIn (w.phaseA ctes frames)
        (i.head ++ (i.query ++ i.tail))) = [] := by
    intro parts hparts
    exact List.flatMap_eq_nil_iff.2 fun part hpart =>
      visitIn_of_sourceFree w (i.beside_free part (hparts part hpart))
  have hquery : i.query.flatMap (SpanTree.visitIn (w.phaseA ctes frames)
        (i.head ++ (i.query ++ i.tail))) =
      w.clauseSources ctes frames i.query :=
    clauseSources_eq ctes frames fun part hpart =>
      i.no_delete part (List.mem_append_left _ hpart)
  have hinsert : SpanTree.visitIn (w.phaseA ctes frames) [] i.insert =
      w.dmlTarget ctes frames i.insert ++
        (i.head ++ (i.query ++ i.tail)).flatMap (SpanTree.visitIn
          (w.phaseA ctes frames) (i.head ++ (i.query ++ i.tail))) := by
    rw [SpanTree.visitIn_eq]
    rfl
  rw [clauseSources, List.flatMap_singleton, hinsert, List.flatMap_append,
    List.flatMap_append, hbeside i.head fun _ => List.mem_append_left _,
    hbeside i.tail fun _ => List.mem_append_right _, List.nil_append,
    List.append_nil, hquery]

end Sources

/-- With the `INSERT` the target is one more source of the level. -/
theorem frames_region (w : Walker Id) (i : InsertSelect) (outer : List Level)
    (hplain : i.Plain) :
    ∃ before after,
      (w.regionLevel i.alone outer).frame =
          ⟨(w.regionLevel i.region outer).ctes, before ++ after⟩ ∧
        (w.regionLevel i.region outer).frame =
          ⟨(w.regionLevel i.region outer).ctes,
            before ++ ((w.target i outer).toList ++ after)⟩ := by
  have hctes : (i.alone.direct .cte).map w.cteBinding =
      (i.region.direct .cte).map w.cteBinding := by
    rw [i.direct_alone rfl (by decide) fun part hpart => (hplain part hpart).1]
  have hdelete : ∀ part ∈ i.query, SpanTree.kind part ≠ .delete :=
    fun part hpart => i.no_delete part (by simp [hpart])
  have hinsert : ∀ part ∈ [i.insert], SpanTree.kind part ≠ .delete := by
    intro part hpart
    rw [List.mem_singleton.1 hpart, i.kind_insert]
    decide
  obtain ⟨before, after, hsources⟩ := nodeSources_region
    ((i.region.direct .cte).map w.cteBinding) (outer.map Level.frame) w
    i.outside i.place fun part hpart =>
      i.no_delete part (List.mem_append_right _ hpart)
  have htarget : (w.dmlTarget ((i.region.direct .cte).map w.cteBinding)
        (outer.map Level.frame) i.insert).filterMap Source.binding =
      (w.target i outer).toList := by
    rw [dmlTarget, target]
    cases (i.insert.direct .objectReference).head? with
    | none => rfl
    | some node =>
        simp only [List.filterMap_cons, List.filterMap_nil, Option.bind_some]
        cases (w.bindTarget _ _ node none).binding <;> rfl
  refine ⟨before.filterMap Source.binding,
    (w.clauseSources ((i.region.direct .cte).map w.cteBinding)
        (outer.map Level.frame) i.query).filterMap Source.binding
      ++ after.filterMap Source.binding, ?_, ?_⟩
  · have halone := hsources i.query hdelete
    rw [← List.filterMap_append, ← List.filterMap_append, ← halone,
      regionLevel, hctes]
    rfl
  · have hregion := hsources [i.insert] hinsert
    rw [← htarget, ← List.filterMap_append, ← List.filterMap_append,
      ← List.filterMap_append, ← List.append_assoc (w.dmlTarget _ _ _),
      ← clauseSources_insert, ← hregion]
    rfl

theorem ctes_alone (w : Walker Id) (outer : List Level) (hplain : i.Plain) :
    (w.regionLevel i.alone outer).ctes = (w.regionLevel i.region outer).ctes := by
  obtain ⟨_, _, halone, -⟩ := frames_region w i outer hplain
  exact congrArg Frame.ctes halone

/-! ## The references of the query -/

/-- What a clause leaves beside its sources when it sees the levels. -/
def clauseEvents (w : Walker Id) (levels : List Level) (clause : Node) :
    List Event :=
  (Node.subqueries clause).flatMap (fun sub =>
      (w.walkRegion sub levels).events)
    ++ SpanTree.visitStack (resolveStep levels) clause

/-- What the clauses of the query leave. -/
def queryEvents (w : Walker Id) (i : InsertSelect) (levels : List Level) :
    List Event :=
  i.query.flatMap (w.clauseEvents levels)

/-- A node that encloses clauses, and an `insert`, leave what is in them. -/
theorem mem_clauseEvents_iff {node : Node} {levels : List Level} {e : Event}
    (hkind : node.kind.encloses = true ∨ node.kind = .insert) :
    e ∈ w.clauseEvents levels node ↔
      e ∈ node.children.flatMap (w.clauseEvents levels) := by
  have hstep : resolveStep levels node = ([], true) := by
    rw [resolveStep]
    cases h : node.kind <;> rw [h] at hkind <;>
      first | rfl | simp [NodeKind.encloses] at hkind
  have hsub : node.subqueries = node.children.flatMap Node.subqueries := by
    rw [Node.subqueries_eq]
    cases h : node.kind <;> rw [h] at hkind <;>
      first | rfl | simp [NodeKind.encloses] at hkind
  simp only [clauseEvents, List.mem_append, List.mem_flatMap, hsub,
    SpanTree.mem_visitStack_iff (n := node), hstep]
  constructor
  · rintro (⟨sub, ⟨child, hchild, hsub⟩, he⟩ | he | ⟨-, child, hchild, he⟩)
    · exact ⟨child, hchild, .inl ⟨sub, hsub, he⟩⟩
    · cases he
    · exact ⟨child, hchild, .inr he⟩
  · rintro ⟨child, hchild, ⟨sub, hsub, he⟩ | he⟩
    · exact .inl ⟨sub, ⟨child, hchild, hsub⟩, he⟩
    · exact .inr (.inr ⟨trivial, child, hchild, he⟩)

/-- A region leaves its sources, the walks of its CTEs and what its clauses
leave. -/
theorem mem_walkRegion_enclosing_iff {region : Node} {e : Event}
    (hkind : region.kind.encloses = true)
    (hset : region.direct .setOperation = []) :
    e ∈ (w.walkRegion region outer).events ↔
      e ∈ (w.regionLevel region outer).sources.map Event.bound ∨
        e ∈ (cteBodyWalks w.walkRegion (some region)
            ((region.direct .cte).map w.cteBinding) outer).flatMap
          Walk.events ∨
        e ∈ region.children.flatMap
          (w.clauseEvents (w.regionLevel region outer :: outer)) := by
  have herror : region.kind ≠ .error := NodeKind.ne_of_flag hkind rfl
  have hne : region.kind ≠ .setOperation := NodeKind.ne_of_flag hkind rfl
  have hsides : ¬ region.hasSides := by
    rw [Node.hasSides, hset]
    simpa using hne
  have hparts : ∀ part ∈ region.children, SpanTree.kind part ≠ .setOperation :=
    Node.direct_eq_nil_iff.1 hset
  rw [walkRegion_eq, walkRegionWith_parts w herror hsides,
    events_walkParts w _ ⟨region.children, region.children⟩]
  change e ∈ (w.regionLevel region outer).sources.map Event.bound
    ++ (_ ++ region.children.flatMap fun part =>
      (partWalks w.walkRegion (w.regionLevel region outer :: outer)
        part).flatMap Walk.events)
    ++ region.children.flatMap
      (resolvePart (w.regionLevel region outer :: outer)) ↔ _
  have hwalks : ∀ part ∈ region.children,
      (partWalks w.walkRegion (w.regionLevel region outer :: outer)
        part).flatMap Walk.events =
      (Node.subqueries part).flatMap fun sub =>
        (w.walkRegion sub (w.regionLevel region outer :: outer)).events := by
    intro part hpart
    rw [partWalks, if_neg (hparts part hpart), List.flatMap_map]
  have hresolve : ∀ part ∈ region.children,
      resolvePart (w.regionLevel region outer :: outer) part =
        SpanTree.visitStack
          (resolveStep (w.regionLevel region outer :: outer)) part := by
    intro part hpart
    rw [resolvePart, if_neg (hparts part hpart)]
  rw [List.flatMap_congr hwalks, List.flatMap_congr hresolve]
  simp only [clauseEvents, List.mem_append, List.mem_flatMap]
  constructor
  · rintro ((he | he | ⟨part, hpart, he⟩) | ⟨part, hpart, he⟩)
    · exact .inl he
    · exact .inr (.inl he)
    · exact .inr (.inr ⟨part, hpart, .inl he⟩)
    · exact .inr (.inr ⟨part, hpart, .inr he⟩)
  · rintro (he | he | ⟨part, hpart, he | he⟩)
    · exact .inl (.inl he)
    · exact .inl (.inr (.inl he))
    · exact .inl (.inr (.inr ⟨part, hpart, he⟩))
    · exact .inr ⟨part, hpart, he⟩

/-- What the clauses of a region leave: those in the place, and those beside. -/
theorem mem_region_iff (outside : List Enclosing) (place : Enclosing)
    {clauses : List Node} {levels : List Level} {e : Event} :
    e ∈ (Enclosing.region outside place clauses).children.flatMap
        (w.clauseEvents levels) ↔
      e ∈ clauses.flatMap (w.clauseEvents levels) ∨
        e ∈ (Enclosing.beside outside place).flatMap (w.clauseEvents levels) := by
  induction outside with
  | nil =>
      change e ∈ (place.before ++ (clauses ++ place.after)).flatMap _ ↔ _
      simp only [Enclosing.beside, List.flatMap_nil, List.flatMap_append,
        List.mem_append, List.append_nil]
      tauto
  | cons f outside ih =>
      have hkind := Enclosing.encloses_region outside place clauses
      change e ∈ (f.before ++ ([Enclosing.region outside place clauses]
        ++ f.after)).flatMap _ ↔ _
      simp only [Enclosing.beside, List.flatMap_cons, List.flatMap_append,
        List.mem_append, mem_clauseEvents_iff (.inl hkind)] at ih ⊢
      rw [ih]
      tauto

/-- The walk of the region with the query leaves its sources, the walks of its
CTEs, what the query leaves, and what stands beside it leaves. -/
theorem mem_alone_iff (hplain : i.Plain) {e : Event} :
    e ∈ (w.walkRegion i.alone outer).events ↔
      e ∈ (w.regionLevel i.alone outer).sources.map Event.bound ∨
        e ∈ (cteBodyWalks w.walkRegion (some i.alone)
            ((i.alone.direct .cte).map w.cteBinding) outer).flatMap
          Walk.events ∨
        e ∈ w.queryEvents i (w.regionLevel i.alone outer :: outer) ∨
        e ∈ (Enclosing.beside i.outside i.place).flatMap
          (w.clauseEvents (w.regionLevel i.alone outer :: outer)) := by
  have hset : i.alone.direct .setOperation = [] :=
    i.direct_setOperation fun part hpart => (hplain part hpart).2
  have hkind : i.alone.kind.encloses = true :=
    Enclosing.encloses_region i.outside i.place i.query
  rw [mem_walkRegion_enclosing_iff hkind hset]
  exact or_congr_right (or_congr_right (mem_region_iff i.outside i.place))

/-- The walk of the region with the `INSERT` leaves the like, and what stands
beside the query in the `INSERT` leaves. -/
theorem mem_insert_iff {e : Event} :
    e ∈ (w.walkRegion i.region outer).events ↔
      e ∈ (w.regionLevel i.region outer).sources.map Event.bound ∨
        e ∈ (cteBodyWalks w.walkRegion (some i.region)
            ((i.region.direct .cte).map w.cteBinding) outer).flatMap
          Walk.events ∨
        e ∈ w.queryEvents i (w.regionLevel i.region outer :: outer) ∨
        e ∈ (i.head ++ i.tail
            ++ Enclosing.beside i.outside i.place).flatMap
          (w.clauseEvents (w.regionLevel i.region outer :: outer)) := by
  have hset : i.region.direct .setOperation = [] := by
    refine i.direct_setOperation fun part hpart => ?_
    rw [List.mem_singleton.1 hpart, i.kind_insert]
    decide
  have hkind : i.region.kind.encloses = true :=
    Enclosing.encloses_region i.outside i.place [i.insert]
  rw [mem_walkRegion_enclosing_iff hkind hset]
  refine or_congr_right (or_congr_right
    ((mem_region_iff i.outside i.place).trans ?_))
  rw [List.flatMap_singleton, mem_clauseEvents_iff (.inr i.kind_insert)]
  change e ∈ (i.head ++ (i.query ++ i.tail)).flatMap _ ∨ _ ↔ _
  simp only [queryEvents, List.flatMap_append, List.mem_append]
  tauto

/-- A reference of the query is resolved in the one walk as in the other, but for
the level of the query. -/
theorem resolve_queryEvents {base base' : List Level}
    (h : base.map Level.ctes = base'.map Level.ctes) {field : Node}
    {levels : List Level}
    (hmem : Event.resolve field levels ∈ w.queryEvents i base) :
    ∃ inner, levels = inner ++ base ∧
      Event.resolve field (inner ++ base') ∈ w.queryEvents i base' := by
  have hrebased : List.Forall₂ (Event.Rebased base base')
      (w.queryEvents i base) (w.queryEvents i base') :=
    forall₂_flatMap fun part _ => List.rel_append
      (forall₂_flatMap fun sub _ => rebased_walkRegion h sub [])
      (rebased_visitStack [] part)
  obtain ⟨e, he, hrebased⟩ := exists_of_forall₂ hrebased hmem
  generalize hevent : Event.resolve field levels = event at hrebased
  cases hrebased with
  | syntaxError node => cases hevent
  | bound source => cases hevent
  | resolve field' inner =>
      obtain ⟨rfl, hlevels⟩ := Event.resolve.inj hevent
      exact ⟨inner, hlevels, he⟩

/-! ## Reports -/

/-- The report of a column, if the event makes one. -/
def columnReport (w : Walker Id) (e : Event) : Option Diagnostic :=
  (w.diagnose e).filter fun d =>
    decide (d.kind = .unknownColumn ∨ d.kind = .ambiguousColumn)

theorem columnReport_of_kinds {e : Event}
    (h : ∀ d, w.diagnose e = some d →
      d.kind = .unknownColumn ∨ d.kind = .ambiguousColumn) :
    w.columnReport e = w.diagnose e := by
  rw [columnReport]
  cases hd : w.diagnose e with
  | none => rfl
  | some d => exact Option.filter_some_pos (by simpa using h d hd)

/-! ### References with a qualifier -/

/-- No reference of the query has the name of the target as its qualifier. -/
def Unqualified (w : Walker Id) (i : InsertSelect) (outer : List Level) :
    Prop :=
  ∀ field levels,
    .resolve field levels ∈
        w.queryEvents i (w.regionLevel i.alone outer :: outer) →
    ∀ qualifier qualifierRange column,
      w.identifierParts field = [(qualifier, qualifierRange), column] →
        ∀ target ∈ w.target i outer, target.matchesQualifier qualifier = false

theorem lookupQualifier_insert (hplain : i.Plain) {qualifier : Text}
    (h : ∀ target ∈ w.target i outer,
      target.matchesQualifier qualifier = false)
    (inner frames : List Frame) :
    lookupQualifier
        (inner ++ (w.regionLevel i.region outer).frame :: frames) qualifier =
      lookupQualifier
        (inner ++ (w.regionLevel i.alone outer).frame :: frames) qualifier := by
  have hnone : (w.target i outer).toList.find? (·.matchesQualifier qualifier) =
      none := by
    rw [List.find?_eq_none]
    intro target htarget
    simp [h target (Option.mem_toList.1 htarget)]
  obtain ⟨before, after, halone, hregion⟩ := frames_region w i outer hplain
  have hframe : (w.regionLevel i.region outer).frame.qualifier qualifier =
      (w.regionLevel i.alone outer).frame.qualifier qualifier := by
    rw [halone, hregion, Frame.qualifier, Frame.qualifier, List.find?_append,
      List.find?_append, hnone, Option.none_or, ← List.find?_append]
  rw [lookupQualifier, lookupQualifier, List.findSome?_append,
    List.findSome?_append, List.findSome?_cons, List.findSome?_cons, hframe]

/-- A reference with a schema does not depend on the sources. -/
theorem resolveReference_of_schema {refs : List (Text × ByteRange)}
    (h : 3 ≤ refs.length) (catalog : CatalogCache Id)
    (frames frames' : List Frame) :
    resolveReference catalog frames refs =
      resolveReference catalog frames' refs := by
  rw [← List.length_reverse] at h
  rw [resolveReference, resolveReference]
  rcases hrefs : refs.reverse with _ | ⟨column, _ | ⟨relation, _ | ⟨schema, rest⟩⟩⟩
  · simp [hrefs] at h
  · simp [hrefs] at h
  · simp [hrefs] at h
  · rfl

/-- With a qualifier, or with a schema, a reference is reported as alone. -/
theorem diagnose_insert_of_not_bare (hplain : i.Plain) {field : Node}
    (hbare : ∀ part, w.identifierParts field ≠ [part])
    (h : ∀ qualifier qualifierRange column,
      w.identifierParts field = [(qualifier, qualifierRange), column] →
        ∀ target ∈ w.target i outer, target.matchesQualifier qualifier = false)
    (inner : List Level) :
    w.diagnose
        (.resolve field (inner ++ w.regionLevel i.region outer :: outer)) =
      w.diagnose
        (.resolve field (inner ++ w.regionLevel i.alone outer :: outer)) := by
  simp only [diagnose, resolveField, List.map_append, List.map_cons]
  congr 1
  rcases hparts : w.identifierParts field with
    _ | ⟨first, _ | ⟨column, _ | ⟨third, rest⟩⟩⟩
  · rfl
  · exact absurd hparts (hbare first)
  · simp only [resolveReference, List.reverse_cons, List.reverse_nil,
      List.nil_append, List.singleton_append,
      lookupQualifier_insert hplain (h _ _ _ hparts)]
  · exact resolveReference_of_schema (by simp) w.catalog _ _

/-! ### Bare references -/

theorem columnReport_bare (hloaded : w.loaded = true) {field : Node}
    {name : Text} {range : ByteRange}
    (hparts : w.identifierParts field = [(name, range)]) (levels : List Level) :
    w.columnReport (.resolve field levels) =
      resolveBare w.catalog name range false (levels.map Level.frame) := by
  have hdiagnose := diagnose_of_bareReference (e := .resolve field levels)
    hloaded (r := ⟨name, range, levels⟩) (by simp [bareReference, hparts])
  rw [columnReport_of_kinds, hdiagnose]
  intro d hd
  exact resolveBare_kind (hdiagnose.symm.trans hd)

/-- The reports of a bare reference with and without the target agree where an
inner level has the column, or where one more source makes no difference. -/
theorem resolveBare_insert_iff (hplain : i.Plain) (name : Text)
    (range : ByteRange) (inner frames : List Frame) :
    resolveBare w.catalog name range false
          (inner ++ (w.regionLevel i.region outer).frame :: frames) =
        resolveBare w.catalog name range false
          (inner ++ (w.regionLevel i.alone outer).frame :: frames) ↔
      ∀ target ∈ w.target i outer,
        (∃ frame ∈ inner, bareHits w.catalog name frame ≠ []) ∨
          Unmoved w.catalog name target (inner.any Frame.anyColumns)
            (w.regionLevel i.alone outer).frame frames := by
  by_cases hinner : ∃ frame ∈ inner, bareHits w.catalog name frame ≠ []
  · exact iff_of_true (resolveBare_append_of_hit hinner false _ _)
      fun target _ => .inl hinner
  · have hnone : ∀ frame ∈ inner, bareHits w.catalog name frame = [] := by
      push Not at hinner
      exact hinner
    obtain ⟨before, after, halone, hregion⟩ := frames_region w i outer hplain
    rw [resolveBare_append hnone, resolveBare_append hnone, hregion, halone,
      Bool.false_or]
    cases htarget : w.target i outer with
    | none =>
        simp only [Option.toList_none, List.nil_append, Option.mem_def,
          reduceCtorEq, false_implies, implies_true]
    | some target =>
        simp only [Option.mem_def, Option.some.injEq, forall_eq', hinner,
          false_or, Option.toList_some, List.singleton_append]
        have hperm (ctes : List Binding) :
            (Frame.mk ctes (before ++ target :: after)).bindings.Perm
              (Frame.mk ctes (target :: (before ++ after))).bindings :=
          List.perm_middle
        rw [resolveBare_perm (hperm _)]
        exact resolveBare_cons_eq_iff target _ _ _ frames

/-! ## The query beside its target -/

/-- The query is analysed as a statement of its own: the same references are
resolved in the walk of the `INSERT`, but for the level of the query, and of
their columns the same is reported. -/
structure AnalysedAlone (w : Walker Id) (i : InsertSelect)
    (outer : List Level) : Prop where
  of_alone : ∀ field levels,
    .resolve field levels ∈
        w.queryEvents i (w.regionLevel i.alone outer :: outer) →
      ∃ inner, levels = inner ++ w.regionLevel i.alone outer :: outer ∧
        .resolve field (inner ++ w.regionLevel i.region outer :: outer) ∈
          (w.walkRegion i.region outer).events ∧
        w.columnReport (.resolve field levels) =
          w.columnReport
            (.resolve field (inner ++ w.regionLevel i.region outer :: outer))
  of_insert : ∀ field levels,
    .resolve field levels ∈
        w.queryEvents i (w.regionLevel i.region outer :: outer) →
      ∃ inner, levels = inner ++ w.regionLevel i.region outer :: outer ∧
        .resolve field (inner ++ w.regionLevel i.alone outer :: outer) ∈
          (w.walkRegion i.alone outer).events ∧
        w.columnReport (.resolve field levels) =
          w.columnReport
            (.resolve field (inner ++ w.regionLevel i.alone outer :: outer))

/-- The target makes no difference to a name that the inner levels do not
have. -/
def LeavesAlone (w : Walker Id) (i : InsertSelect) (outer inner : List Level)
    (name : Text) : Prop :=
  ∀ target ∈ w.target i outer,
    (∃ level ∈ inner, bareHits w.catalog name level.frame ≠ []) ∨
      Unmoved w.catalog name target
        (inner.any fun level => level.frame.anyColumns)
        (w.regionLevel i.alone outer).frame (outer.map Level.frame)

/-- The target changes the report of no bare reference: an inner level has the
column, or the target as one more source makes no difference. -/
def Undisturbed (w : Walker Id) (i : InsertSelect) (outer : List Level) :
    Prop :=
  ∀ field inner,
    .resolve field (inner ++ w.regionLevel i.alone outer :: outer) ∈
        w.queryEvents i (w.regionLevel i.alone outer :: outer) →
    ∀ name range, w.identifierParts field = [(name, range)] →
      w.LeavesAlone i outer inner name

/-- When a reference of the query has the same report in both walks. -/
theorem columnReport_insert_iff (hloaded : w.loaded = true)
    (hplain : i.Plain) (hunqualified : w.Unqualified i outer) {field : Node}
    {inner : List Level}
    (hmem : .resolve field (inner ++ w.regionLevel i.alone outer :: outer) ∈
      w.queryEvents i (w.regionLevel i.alone outer :: outer)) :
    w.columnReport
          (.resolve field (inner ++ w.regionLevel i.alone outer :: outer)) =
        w.columnReport
          (.resolve field (inner ++ w.regionLevel i.region outer :: outer)) ↔
      ∀ name range, w.identifierParts field = [(name, range)] →
        w.LeavesAlone i outer inner name := by
  by_cases hbare : ∃ part, w.identifierParts field = [part]
  · obtain ⟨⟨name, range⟩, hparts⟩ := hbare
    rw [columnReport_bare hloaded hparts, columnReport_bare hloaded hparts,
      List.map_append, List.map_append, List.map_cons, List.map_cons,
      eq_comm, resolveBare_insert_iff hplain, List.any_map]
    simp only [LeavesAlone, hparts, List.cons.injEq, Prod.mk.injEq, and_true,
      and_imp, forall_eq', forall_apply_eq_imp_iff, List.mem_map,
      exists_exists_and_eq_and]
    rfl
  · push Not at hbare
    have hsame := diagnose_insert_of_not_bare hplain hbare
      (hunqualified field _ hmem · · ·) inner
    rw [columnReport, columnReport, hsame]
    exact iff_of_true rfl fun name range hparts => absurd hparts (hbare _)

/-- The columns of the target are in sight of the query's references. A plain
query is analysed as alone if and only if they make no difference to any of
them. -/
theorem analysedAlone_iff (w : Walker Id) (i : InsertSelect)
    (outer : List Level) (hloaded : w.loaded = true) (hplain : i.Plain)
    (hunqualified : w.Unqualified i outer) :
    w.AnalysedAlone i outer ↔ w.Undisturbed i outer := by
  have hctes : (w.regionLevel i.alone outer :: outer).map Level.ctes =
      (w.regionLevel i.region outer :: outer).map Level.ctes := by
    rw [List.map_cons, List.map_cons, ctes_alone w outer hplain]
  constructor
  · intro h field inner hmem
    obtain ⟨inner', hlevels, -, hreport⟩ := h.of_alone field _ hmem
    rw [← List.append_cancel_right hlevels] at hreport
    exact (columnReport_insert_iff hloaded hplain hunqualified hmem).1 hreport
  · intro h
    refine ⟨fun field levels hmem => ?_, fun field levels hmem => ?_⟩
    · obtain ⟨inner, rfl, hinsert⟩ := resolve_queryEvents hctes hmem
      exact ⟨inner, rfl, mem_insert_iff.2 (.inr (.inr (.inl hinsert))),
        (columnReport_insert_iff hloaded hplain hunqualified hmem).2
          (h field inner hmem)⟩
    · obtain ⟨inner, rfl, halone⟩ := resolve_queryEvents hctes.symm hmem
      exact ⟨inner, rfl,
        (mem_alone_iff hplain).2 (.inr (.inr (.inl halone))),
        ((columnReport_insert_iff hloaded hplain hunqualified halone).2
          (h field inner halone)).symm⟩

end

end Walker

/-! ## A column that the target shares with a source -/

section Sample

local instance asciiInsert : Unicode := Unicode.ascii

/-- `insert into users select id from users` -/
def sharedColumn : InsertSelect where
  head :=
    [.leaf (.keyword "insert") 0 6, .leaf (.keyword "into") 7 11,
      .node .objectReference 12 17 [.leaf .identifier 12 17]]
  query :=
    [.node .select 18 27
        [.leaf (.keyword "select") 18 24,
          .node .selectExpression 25 27
            [.node .term 25 27
              [.node .field 25 27 [.leaf .identifier 25 27]]]],
      .node .fromClause 28 38
        [.leaf (.keyword "from") 28 32,
          .node .relation 33 38
            [.node .objectReference 33 38 [.leaf .identifier 33 38]]]]
  tail := []
  insertRange := ⟨0, 38⟩
  place := ⟨.statement, ⟨0, 38⟩, [], [], rfl⟩
  outside := []
  beside_free := by decide
  no_delete := by decide
  no_sides := by decide

def sharedWalker : Walker ℕ where
  text := "insert into users select id from users".toList
  catalog := usersCatalog

/-- The reference `id`. -/
def sharedField : Node :=
  .node .field 25 27 [.leaf .identifier 25 27]

theorem queryEvents_sharedColumn (levels : List Level) :
    sharedWalker.queryEvents sharedColumn levels =
      [.resolve sharedField levels] := by
  rfl

/-- By itself the query has no diagnostic, in the `INSERT` its column is
ambiguous. -/
theorem sharedColumn_ambiguous :
    sharedWalker.regionDiagnostics sharedColumn.alone [] = [] ∧
      (∃ d ∈ sharedWalker.regionDiagnostics sharedColumn.region [],
        d.kind = .ambiguousColumn) ∧
      ¬sharedWalker.AnalysedAlone sharedColumn [] := by
  refine ⟨by decide +kernel, by decide +kernel, fun h => ?_⟩
  obtain ⟨inner, hlevels, -, hreport⟩ := h.of_alone sharedField
    [sharedWalker.regionLevel sharedColumn.alone []] (by
      rw [queryEvents_sharedColumn]
      exact List.mem_singleton_self _)
  have hinner : [] = inner := List.append_cancel_right hlevels
  subst hinner
  revert hreport
  decide +kernel

/-- `with t as (select id from users) insert into users select id from t, users`:
the target has the name of one of the two sources that `id` matches anyway. -/
def sharedLabel : InsertSelect where
  head :=
    [.leaf (.keyword "insert") 33 39, .leaf (.keyword "into") 40 44,
      .node .objectReference 45 50 [.leaf .identifier 45 50]]
  query :=
    [.node .select 51 60
        [.leaf (.keyword "select") 51 57,
          .node .selectExpression 58 60
            [.node .term 58 60
              [.node .field 58 60 [.leaf .identifier 58 60]]]],
      .node .fromClause 61 74
        [.leaf (.keyword "from") 61 65,
          .node .relation 66 67
            [.node .objectReference 66 67 [.leaf .identifier 66 67]],
          .leaf .comma 67 68,
          .node .relation 69 74
            [.node .objectReference 69 74 [.leaf .identifier 69 74]]]]
  tail := []
  insertRange := ⟨33, 74⟩
  place :=
    { kind := .statement
      range := ⟨0, 74⟩
      before :=
        [.leaf (.keyword "with") 0 4,
          .node .cte 5 32
            [.leaf .identifier 5 6, .leaf .keywordAs 7 9,
              .leaf .openParen 10 11,
              .node .statement 11 31
                [.node .select 11 20
                  [.leaf (.keyword "select") 11 17,
                    .node .selectExpression 18 20
                      [.node .term 18 20
                        [.node .field 18 20 [.leaf .identifier 18 20]]]],
                  .node .fromClause 21 31
                    [.leaf (.keyword "from") 21 25,
                      .node .relation 26 31
                        [.node .objectReference 26 31
                          [.leaf .identifier 26 31]]]],
              .leaf .closeParen 31 32]]
      after := []
      encloses := rfl }
  outside := []
  beside_free := by decide
  no_delete := by decide
  no_sides := by decide

def labelWalker : Walker ℕ where
  text := ("with t as (select id from users) insert into users "
    ++ "select id from t, users").toList
  catalog := usersCatalog

/-- The reference `id` of the query. -/
def labelField : Node :=
  .node .field 58 60 [.leaf .identifier 58 60]

theorem queryEvents_sharedLabel (levels : List Level) :
    labelWalker.queryEvents sharedLabel levels =
      [.resolve labelField levels] := by
  rfl

theorem unqualified_sharedLabel : labelWalker.Unqualified sharedLabel [] := by
  intro field levels hmem qualifier qualifierRange column hparts
  rw [queryEvents_sharedLabel, List.mem_singleton] at hmem
  obtain ⟨rfl, -⟩ := Event.resolve.inj hmem
  have hone : (labelWalker.identifierParts labelField).length = 1 := by
    decide +kernel
  rw [hparts] at hone
  cases hone

/-- The column is reported as ambiguous in both walks, with the same sources. -/
theorem analysedAlone_sharedLabel :
    labelWalker.target sharedLabel [] ≠ none ∧
      labelWalker.AnalysedAlone sharedLabel [] := by
  refine ⟨by decide +kernel, (Walker.analysedAlone_iff labelWalker sharedLabel []
    (by decide +kernel) (by decide) unqualified_sharedLabel).2 ?_⟩
  intro field inner hmem name range hparts target htarget
  rw [queryEvents_sharedLabel, List.mem_singleton] at hmem
  obtain ⟨rfl, hlevels⟩ := Event.resolve.inj hmem
  have hinner : inner = [] :=
    List.append_cancel_right (hlevels.trans (List.nil_append _).symm)
  subst hinner
  have hname : labelWalker.identifierParts labelField =
      [("id".toList, ⟨58, 60⟩)] := by decide +kernel
  rw [hname, List.cons.injEq, Prod.mk.injEq] at hparts
  obtain ⟨⟨rfl, -⟩, -⟩ := hparts
  have hunmoved : ∀ target ∈ labelWalker.target sharedLabel [],
      Unmoved labelWalker.catalog "id".toList target false
        (labelWalker.regionLevel sharedLabel.alone []).frame [] := by
    decide +kernel
  exact .inr (hunmoved target htarget)

end Sample

end Tempr.Intel
