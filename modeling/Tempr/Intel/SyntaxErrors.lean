import Mathlib.Data.List.Perm.Basic
import Tempr.Intel.Silence

/-!
# Syntax errors

Which errors of a tree the analysis reports. Every node of a statement lies in a
slot: it is walked as a region, resolved as a clause of one, or nobody looks at
it. The errors reported are the outermost ones that do not lie in a blind slot,
each once.
-/

namespace Tempr.Intel

open Tempr.Support
open Tempr.Editor (ByteRange)

/-! ## Slots -/

/-- Who looks at a node. -/
inductive Slot
  /-- it is walked as a region -/
  | region
  /-- the sides of a set operation are walked -/
  | operation
  /-- it is resolved as a clause -/
  | part
  /-- the body of a CTE is walked -/
  | cte
  /-- nobody -/
  | blind
  deriving DecidableEq, Repr

/-- The slots in a set operation. What comes before the first side, and what
stands between the sides, is dropped. -/
def sideSlots (cteSlot : Slot) : Bool → List Node → List Slot
  | _, [] => []
  | begun, child :: rest =>
      if child.kind.startsSide then
        (if child.kind = .setOperation then .region else .part)
          :: sideSlots cteSlot true rest
      else
        (if child.kind = .cte then cteSlot
          else if begun && !child.kind.isSeparator then .part
          else .blind) :: sideSlots cteSlot begun rest

/-- The slots in a region. Beside set operations only CTEs are looked at. -/
def regionSlots (kind : NodeKind) (children : List Node) : List Slot :=
  if kind = .setOperation then sideSlots .cte false children
  else if children.any fun child => child.kind = .setOperation then
    children.map fun child =>
      if child.kind = .cte then .cte
      else if child.kind = .setOperation then .operation
      else .blind
  else
    children.map fun child => if child.kind = .cte then .cte else .part

/-- The slots in a CTE: only the first statement is looked at. -/
def cteSlots : List Node → List Slot
  | [] => []
  | child :: rest =>
      if child.kind = .statement then .region :: rest.map fun _ => .blind
      else .blind :: cteSlots rest

/-- The slots in a node that lies in a slot. -/
def childSlots (slot : Slot) (kind : NodeKind) (children : List Node) :
    List Slot :=
  match slot with
  | .region => regionSlots kind children
  | .operation => sideSlots .blind false children
  | .part =>
      if kind = .subquery then regionSlots kind children
      else children.map fun _ => if kind = .cte then .blind else .part
  | .cte => cteSlots children
  | .blind => children.map fun _ => .blind

/-- The slot of a child of the root. -/
def rootSlot (child : Node) : Slot :=
  if child.kind = .semicolon ∨ child.kind = .comma ∨ child.children = [] then
    .blind
  else .region

/-! ## Errors -/

/-- The outermost errors of a tree. -/
def Node.errors (node : Node) : List Node :=
  node.topmost (fun kind => decide (kind = .error)) fun _ => false

mutual

/-- The outermost errors of a tree that lie in slots looked at, or in blind
ones. -/
def errorsIn (seen : Bool) (slot : Slot) : Node → List Node
  | .node kind start stop children =>
      if kind = .error then
        if decide (slot ≠ .blind) = seen then
          [.node kind start stop children]
        else []
      else errorsInAll seen (childSlots slot kind children) children

def errorsInAll (seen : Bool) : List Slot → List Node → List Node
  | slot :: slots, child :: rest =>
      errorsIn seen slot child ++ errorsInAll seen slots rest
  | _, _ => []

end

/-- The errors of a file that somebody looks at. -/
def Node.seenErrors (root : Node) : List Node :=
  root.children.flatMap fun child => errorsIn true (rootSlot child) child

/-- The errors of a file that nobody looks at. -/
def Node.lostErrors (root : Node) : List Node :=
  root.children.flatMap fun child => errorsIn false (rootSlot child) child

section Errors

variable {seen : Bool} {slot : Slot}

theorem errorsIn_eq (node : Node) :
    errorsIn seen slot node =
      if node.kind = .error then
        if decide (slot ≠ .blind) = seen then [node] else []
      else errorsInAll seen (childSlots slot node.kind node.children)
        node.children := by
  cases node
  rw [errorsIn]
  rfl

theorem errorsInAll_map (f : Node → Slot) (children : List Node) :
    errorsInAll seen (children.map f) children =
      children.flatMap fun child => errorsIn seen (f child) child := by
  induction children with
  | nil => rfl
  | cons child rest ih =>
      rw [List.map_cons, errorsInAll, ih, List.flatMap_cons]

theorem errorsIn_true_blind (node : Node) :
    errorsIn true .blind node = [] := by
  induction node using SpanTree.induction_children with
  | h node ih =>
      rw [errorsIn_eq]
      split
      · rfl
      · rw [childSlots, errorsInAll_map, List.flatMap_eq_nil_iff]
        exact ih

theorem length_sideSlots (cteSlot : Slot) (begun : Bool)
    (children : List Node) :
    (sideSlots cteSlot begun children).length = children.length := by
  induction children generalizing begun with
  | nil => rfl
  | cons child rest ih =>
      rw [sideSlots]
      split <;> simp [ih]

theorem length_regionSlots (kind : NodeKind) (children : List Node) :
    (regionSlots kind children).length = children.length := by
  rw [regionSlots]
  split
  · exact length_sideSlots _ _ _
  · split <;> simp

theorem length_cteSlots (children : List Node) :
    (cteSlots children).length = children.length := by
  induction children with
  | nil => rfl
  | cons child rest ih =>
      rw [cteSlots]
      split <;> simp [ih]

theorem length_childSlots (slot : Slot) (kind : NodeKind)
    (children : List Node) :
    (childSlots slot kind children).length = children.length := by
  cases slot with
  | region => exact length_regionSlots kind children
  | operation => exact length_sideSlots _ _ _
  | part =>
      rw [childSlots]
      split
      · exact length_regionSlots kind children
      · simp
  | cte => exact length_cteSlots children
  | blind => simp [childSlots]

theorem Node.errors_eq (node : Node) :
    node.errors =
      if node.kind = .error then [node] else node.children.flatMap errors := by
  rw [errors, SpanTree.topmost_eq]
  simp only [decide_eq_true_eq, Bool.false_eq_true, if_false]
  rfl

theorem errorsInAll_perm {children : List Node}
    (h : ∀ child ∈ children, ∀ slot,
      (Node.errors child).Perm
        (errorsIn true slot child ++ errorsIn false slot child))
    {slots : List Slot} (hlength : slots.length = children.length) :
    (children.flatMap Node.errors).Perm
      (errorsInAll true slots children ++ errorsInAll false slots children) := by
  induction children generalizing slots with
  | nil => cases slots <;> simp [errorsInAll]
  | cons child rest ih =>
      cases slots with
      | nil => simp at hlength
      | cons slot slots =>
          have hrest := ih (fun c hc => h c (List.mem_cons_of_mem _ hc))
            (Nat.succ.inj hlength)
          rw [List.flatMap_cons, errorsInAll, errorsInAll]
          refine ((h child List.mem_cons_self slot).append hrest).trans ?_
          simp only [List.append_assoc]
          exact (List.perm_append_comm_assoc _ _ _).append_left _

/-- Every outermost error is seen or lost. -/
theorem Node.errors_perm (node : Node) (slot : Slot) :
    node.errors.Perm
      (errorsIn true slot node ++ errorsIn false slot node) := by
  induction node using SpanTree.induction_children generalizing slot with
  | h node ih =>
      rw [errors_eq, errorsIn_eq, errorsIn_eq]
      split
      · by_cases hslot : slot = .blind <;> simp [hslot]
      · exact errorsInAll_perm ih (length_childSlots _ _ _)

theorem Node.seen_append_lost_perm {root : Node} (h : root.kind ≠ .error) :
    root.errors.Perm (root.seenErrors ++ root.lostErrors) := by
  rw [errors_eq, if_neg h]
  refine List.Perm.trans ?_ (List.flatMap_append_perm _ _ _).symm
  exact List.Perm.flatMap_left _ fun child _ =>
    errors_perm child (rootSlot child)

end Errors

/-! ## Errors in slots -/

section Slots

theorem flatMap_filter_eq {α β : Type*} (l : List α) (p : α → Bool)
    (f : α → List β) :
    (l.filter p).flatMap f = l.flatMap fun a => if p a then f a else [] := by
  induction l with
  | nil => rfl
  | cons a l ih => cases h : p a <;> simp [h, ih]

theorem errorsInAll_blind (children : List Node) :
    errorsInAll true (children.map fun _ => Slot.blind) children = [] := by
  rw [errorsInAll_map, List.flatMap_eq_nil_iff]
  intro child _
  exact errorsIn_true_blind child

theorem errorsIn_part_cte {node : Node} (h : node.kind = .cte) :
    errorsIn true .part node = [] := by
  rw [errorsIn_eq, h, if_neg (by decide), childSlots, if_neg (by decide)]
  exact errorsInAll_blind node.children

theorem errorsIn_part_subquery {node : Node} (h : node.kind = .subquery) :
    errorsIn true .part node = errorsIn true .region node := by
  rw [errorsIn_eq, errorsIn_eq, h, if_neg (by decide), if_neg (by decide),
    childSlots, childSlots, if_pos rfl]

/-- In a CTE the body alone is looked at. -/
theorem errorsIn_cte {node : Node} (h : node.kind = .cte) :
    errorsIn true .cte node =
      node.cteBody.toList.flatMap (errorsIn true .region) := by
  have hslots : ∀ children : List Node,
      errorsInAll true (cteSlots children) children =
        (children.filter fun child =>
          child.kind = .statement).head?.toList.flatMap
          (errorsIn true .region) := by
    intro children
    induction children with
    | nil => rfl
    | cons child rest ih =>
        rw [cteSlots]
        by_cases hkind : child.kind = .statement
        · rw [if_pos hkind, errorsInAll, errorsInAll_blind,
            List.filter_cons_of_pos (by simp [hkind])]
          simp
        · simp [hkind, errorsInAll, errorsIn_true_blind, ih]
  rw [errorsIn_eq, h, if_neg (by decide)]
  exact hslots node.children

/-- What is seen of a part of a region. -/
def partErrors (part : Node) : List Node :=
  if part.kind = .setOperation then errorsIn true .region part
  else errorsIn true .part part

theorem startsSide_iff {kind : NodeKind} :
    kind.startsSide = true ↔ kind = .select ∨ kind = .setOperation :=
  decide_eq_true_iff

theorem not_isSeparator_cte : NodeKind.isSeparator .cte = false := rfl

/-- The sides of a set operation hold what is looked at in it, apart from its
CTEs. -/
theorem flatMap_sidesFrom (side : Option (List Node)) (children : List Node) :
    (sidesFrom side children).flatten.flatMap partErrors =
      (side.getD []).flatMap partErrors
        ++ errorsInAll true (sideSlots .blind side.isSome children)
          children := by
  induction children generalizing side with
  | nil => cases side <;> simp [sidesFrom, sideSlots, errorsInAll]
  | cons child rest ih =>
      rw [sidesFrom, sideSlots]
      by_cases hstarts : child.kind.startsSide = true
      · have hchild : partErrors child = errorsIn true
            (if child.kind = .setOperation then .region else .part) child := by
          rw [partErrors]
          split <;> rfl
        rw [if_pos hstarts, if_pos hstarts, errorsInAll, ← hchild,
          List.flatten_append, List.flatMap_append, ih]
        cases side <;> simp
      · rw [if_neg hstarts, if_neg hstarts]
        have hset : child.kind ≠ .setOperation := fun h =>
          hstarts (startsSide_iff.2 (.inr h))
        by_cases hseparator : child.kind.isSeparator = true
        · have hcte : child.kind ≠ .cte := by
            intro h
            rw [h, not_isSeparator_cte] at hseparator
            cases hseparator
          rw [if_pos hseparator, ih, if_neg hcte]
          simp [hseparator, errorsInAll, errorsIn_true_blind]
        · rw [if_neg hseparator, ih]
          cases side with
          | none => simp [errorsInAll, errorsIn_true_blind]
          | some side =>
              have hchild : partErrors child = errorsIn true
                  (if child.kind = .cte then Slot.blind else Slot.part)
                  child := by
                rw [partErrors, if_neg hset]
                split
                · next hcte =>
                    rw [errorsIn_part_cte hcte, errorsIn_true_blind]
                · rfl
              simp [hseparator, errorsInAll, hchild]

/-- The CTEs of a set operation are looked at beside its sides. -/
theorem sideSlots_cte_perm (begun : Bool) (children : List Node) :
    (errorsInAll true (sideSlots .cte begun children) children).Perm
      ((children.filter fun child => child.kind = .cte).flatMap
          (errorsIn true .cte)
        ++ errorsInAll true (sideSlots .blind begun children) children) := by
  induction children generalizing begun with
  | nil => simp [sideSlots, errorsInAll]
  | cons child rest ih =>
      rw [sideSlots, sideSlots]
      by_cases hstarts : child.kind.startsSide = true
      · have hcte : child.kind ≠ .cte := by
          intro h
          rw [h] at hstarts
          exact absurd hstarts (by decide)
        rw [if_pos hstarts, if_pos hstarts, errorsInAll, errorsInAll,
          List.filter_cons_of_neg (by simp [hcte])]
        exact ((ih true).append_left _).trans
          (List.perm_append_comm_assoc _ _ _)
      · rw [if_neg hstarts, if_neg hstarts, errorsInAll, errorsInAll]
        by_cases hcte : child.kind = .cte
        · rw [if_pos hcte, if_pos hcte, errorsIn_true_blind, List.nil_append,
            List.filter_cons_of_pos (by simp [hcte]), List.flatMap_cons,
            List.append_assoc]
          exact (ih begun).append_left _
        · rw [if_neg hcte, if_neg hcte,
            List.filter_cons_of_neg (by simp [hcte])]
          exact ((ih begun).append_left _).trans
            (List.perm_append_comm_assoc _ _ _)

theorem flatMap_setOperationSides {op : Node} (h : op.kind ≠ .error) :
    (setOperationSides op).flatten.flatMap partErrors =
      errorsIn true .operation op := by
  rw [setOperationSides, flatMap_sidesFrom, errorsIn_eq, if_neg h]
  rfl

/-- What is looked at in a region of set operations. -/
theorem errorsIn_sides_perm {region : Node} (herror : region.kind ≠ .error)
    (h : region.hasSides) :
    (errorsIn true .region region).Perm
      ((region.direct .cte).flatMap (errorsIn true .cte)
        ++ region.operations.flatMap fun op =>
            (setOperationSides op).flatten.flatMap partErrors) := by
  rw [errorsIn_eq, if_neg herror, childSlots, regionSlots, Node.operations]
  by_cases hkind : region.kind = .setOperation
  · rw [if_pos hkind, if_pos hkind, Node.direct]
    simpa [setOperationSides, flatMap_sidesFrom] using
      sideSlots_cte_perm false region.children
  · have hany : (region.children.any fun child =>
        child.kind = .setOperation) = true := by
      obtain ⟨op, hop⟩ := List.exists_mem_of_ne_nil _ (h.resolve_left hkind)
      exact List.any_eq_true.2 ⟨op, (Node.mem_direct.1 hop).1,
        decide_eq_true (Node.mem_direct.1 hop).2⟩
    rw [if_neg hkind, if_neg hkind, if_pos hany, errorsInAll_map, Node.direct,
      Node.direct, flatMap_filter_eq, flatMap_filter_eq]
    refine List.Perm.trans ?_ (List.flatMap_append_perm _ _ _).symm
    apply List.Perm.flatMap_left
    intro child _
    by_cases hcte : child.kind = .cte
    · simp [hcte]
    · by_cases hset : child.kind = .setOperation
      · rw [flatMap_setOperationSides (by simp [hset])]
        simp [hset]
      · simp [hcte, hset, errorsIn_true_blind]

/-- What is looked at in a region without set operations. -/
theorem errorsIn_parts_perm {region : Node} (herror : region.kind ≠ .error)
    (h : ¬region.hasSides) :
    (errorsIn true .region region).Perm
      ((region.direct .cte).flatMap (errorsIn true .cte)
        ++ region.children.flatMap partErrors) := by
  have hkind : region.kind ≠ .setOperation := fun hk => h (.inl hk)
  have hnone : ∀ child ∈ region.children, child.kind ≠ .setOperation := by
    intro child hchild hset
    exact h (.inr (List.ne_nil_of_mem (Node.mem_direct.2 ⟨hchild, hset⟩)))
  have hany : ¬(region.children.any fun child =>
      child.kind = .setOperation) = true := by
    simpa using hnone
  rw [errorsIn_eq, if_neg herror, childSlots, regionSlots, if_neg hkind,
    if_neg hany, errorsInAll_map, Node.direct, flatMap_filter_eq]
  refine List.Perm.trans ?_ (List.flatMap_append_perm _ _ _).symm
  apply List.Perm.flatMap_left
  intro child hchild
  rw [partErrors, if_neg (hnone child hchild)]
  by_cases hcte : child.kind = .cte
  · simp [hcte, errorsIn_part_cte hcte]
  · simp [hcte]

end Slots

/-! ## Errors of a walk -/

/-- The error that an event reports. -/
def Event.errorNode : Event → Option Node
  | .syntaxError node => some node
  | _ => none

/-- The errors reported, in the order of the walk. -/
def errorNodes (events : List Event) : List Node :=
  events.filterMap Event.errorNode

@[simp] theorem errorNodes_append (a b : List Event) :
    errorNodes (a ++ b) = errorNodes a ++ errorNodes b :=
  List.filterMap_append

theorem errorNodes_flatMap {α : Type*} (l : List α) (f : α → List Event) :
    errorNodes (l.flatMap f) = l.flatMap fun a => errorNodes (f a) :=
  List.filterMap_flatMap

theorem errorNodes_bound (sources : List Source) :
    errorNodes (sources.map Event.bound) = [] := by
  rw [errorNodes, List.filterMap_map, List.filterMap_eq_nil_iff]
  intro source _
  rfl

theorem errorNodes_resolveStep (levels : List Level) (node : Node) :
    errorNodes (resolveStep levels node).1 =
      if node.kind = .error then [node] else [] := by
  cases node with
  | node kind start stop children => cases kind <;> rfl

theorem resolveStep_snd (levels : List Level) (node : Node) :
    (resolveStep levels node).2 =
      !decide (node.kind = .error ∨ node.kind = .subquery
        ∨ node.kind = .cte) := by
  cases node with
  | node kind start stop children => cases kind <;> rfl

theorem Node.subqueries_eq (node : Node) :
    node.subqueries =
      if node.kind = .subquery then [node]
      else if node.kind = .error ∨ node.kind = .cte then []
      else node.children.flatMap subqueries := by
  rw [subqueries, SpanTree.topmost_eq]
  simp only [NodeKind.isSubquery, NodeKind.hidesSubqueries, decide_eq_true_eq]
  rfl

/-- A clause reports what it sees: its own errors when it is resolved, those of
its subqueries when these are walked. -/
theorem part_perm (levels : List Level) (node : Node) :
    (node.subqueries.flatMap (errorsIn true .region)
        ++ errorNodes (SpanTree.visitStack (resolveStep levels) node)).Perm
      (errorsIn true .part node) := by
  induction node using SpanTree.induction_children with
  | h node ih =>
      rw [Node.subqueries_eq, SpanTree.visitStack_eq, errorNodes_append,
        errorNodes_resolveStep, resolveStep_snd]
      by_cases hsub : node.kind = .subquery
      · rw [errorsIn_part_subquery hsub]
        simp [hsub, errorNodes]
      · by_cases herror : node.kind = .error
        · rw [errorsIn_eq]
          simp [herror, errorNodes]
        · by_cases hcte : node.kind = .cte
          · rw [errorsIn_part_cte hcte]
            simp [hcte, errorNodes]
          · have hchildren : errorsIn true .part node =
                node.children.flatMap (errorsIn true .part) := by
              rw [errorsIn_eq, if_neg herror, childSlots, if_neg hsub,
                if_neg hcte, errorsInAll_map]
            rw [hchildren]
            simp only [hsub, herror, hcte, or_self, if_false, decide_false,
              Bool.not_false, if_true, List.nil_append, List.flatMap_assoc,
              errorNodes_flatMap]
            refine (((List.reverse_perm node.children).flatMap_right
              _).append_left _).trans ?_
            refine (List.flatMap_append_perm _ _ _).trans ?_
            exact List.Perm.flatMap_left _ ih

namespace Walker

theorem errorNodes_walks {walks : List Walk} :
    errorNodes (walks.flatMap Walk.events) =
      walks.flatMap fun walk => errorNodes walk.events :=
  errorNodes_flatMap _ _

theorem errorNodes_partWalks {inner : Node → List Level → Walk}
    {levels : List Level} {part : Node}
    (h : ∀ sub ∈ part.subtrees,
      (errorNodes (inner sub levels).events).Perm
        (errorsIn true .region sub)) :
    (errorNodes ((partWalks inner levels part).flatMap Walk.events)
        ++ errorNodes (resolvePart levels part)).Perm (partErrors part) := by
  rw [partWalks, resolvePart, partErrors]
  by_cases hset : part.kind = .setOperation
  · rw [if_pos hset, if_pos hset, if_pos hset]
    simpa [errorNodes] using h part (SpanTree.self_mem_subtrees part)
  · rw [if_neg hset, if_neg hset, if_neg hset, errorNodes_walks,
      List.flatMap_map]
    refine List.Perm.trans ?_ (part_perm levels part)
    apply List.Perm.append_right
    apply List.Perm.flatMap_left
    intro sub hsub
    exact h sub (Node.mem_subtrees_of_mem_subqueries hsub)

variable {Id : Type} [DecidableEq Id] [Unicode]

theorem errorNodes_walkParts {w : Walker Id}
    {inner : Node → List Level → Walk} {siblings parts : List Node}
    {range : ByteRange} {ctes : List Binding} {owner : Option Node}
    {outer : List Level}
    (h : ∀ part ∈ parts, ∀ sub ∈ part.subtrees, ∀ levels,
      (errorNodes (inner sub levels).events).Perm
        (errorsIn true .region sub)) :
    (errorNodes
        (w.walkParts inner siblings parts range ctes owner outer).events).Perm
      (errorNodes ((cteBodyWalks inner owner ctes outer).flatMap Walk.events)
        ++ parts.flatMap partErrors) := by
  simp only [walkParts, errorNodes_append, errorNodes_bound, List.nil_append,
    List.flatMap_append, List.append_assoc]
  apply List.Perm.append_left
  rw [List.flatMap_assoc, errorNodes_flatMap, errorNodes_flatMap]
  refine (List.flatMap_append_perm _ _ _).trans ?_
  apply List.Perm.flatMap_left
  intro part hpart
  exact errorNodes_partWalks fun sub hsub => h part hpart sub hsub _

omit [Unicode] in
theorem errorNodes_cteBodyWalks {inner : Node → List Level → Walk}
    {region : Node} {ctes : List Binding} {outer : List Level}
    (h : ∀ sub ∈ region.descendants, ∀ levels,
      (errorNodes (inner sub levels).events).Perm
        (errorsIn true .region sub)) :
    (errorNodes ((cteBodyWalks inner (some region) ctes outer).flatMap
        Walk.events)).Perm
      ((region.direct .cte).flatMap (errorsIn true .cte)) := by
  have hlist : ∀ (l : List Node) (k : ℕ), (∀ cte ∈ l, cte ∈ region.direct .cte) →
      (errorNodes (((l.zipIdx k).filterMap fun p =>
        (Node.cteBody p.1).map fun body =>
          let walk := inner body (⟨ctes.take p.2, []⟩ :: outer)
          { walk with
            scope := { walk.scope with range := Node.range body } }).flatMap
        Walk.events)).Perm (l.flatMap (errorsIn true .cte)) := by
    intro l
    induction l with
    | nil => intro k _; exact List.Perm.refl _
    | cons cte l ih =>
        intro k hl
        have hcte := hl cte List.mem_cons_self
        have hrest := ih (k + 1) fun c hc => hl c (List.mem_cons_of_mem _ hc)
        rw [List.zipIdx_cons, List.filterMap_cons, List.flatMap_cons,
          errorsIn_cte (Node.mem_direct.1 hcte).2]
        cases hbody : Node.cteBody cte with
        | none => simpa using hrest
        | some body =>
            simp only [Option.map_some, List.flatMap_cons, errorNodes_append,
              Option.toList_some, List.flatMap_nil, List.append_nil]
            exact (h body (Node.mem_descendants_of_cteBody hcte hbody) _).append
              hrest
  exact hlist _ 0 fun cte hcte => hcte

/-- The walk of a region reports what it sees. -/
theorem errorNodes_walkRegion (w : Walker Id) (region : Node)
    (outer : List Level) :
    (errorNodes (w.walkRegion region outer).events).Perm
      (errorsIn true .region region) := by
  refine walkRegion_induction w
    (P := fun region _ walk => (errorNodes walk.events).Perm
      (errorsIn true .region region)) ?_ region outer
  intro region outer ih
  by_cases herror : region.kind = .error
  · rw [walkRegionWith_error w herror, errorsIn_eq]
    simp [herror, errorNodes, Event.errorNode]
  · by_cases hsides : region.hasSides
    · rw [walkRegionWith_sides w herror hsides]
      refine List.Perm.trans ?_ (errorsIn_sides_perm herror hsides).symm
      have hops : ∀ levels : List Level,
          (errorNodes ((region.operations.flatMap fun op =>
            (setOperationSides op).map fun side =>
              w.walkParts w.walkRegion op.children side (partsRange side) []
                none levels).flatMap Walk.events)).Perm
            (region.operations.flatMap fun op =>
              (setOperationSides op).flatten.flatMap partErrors) := by
        intro levels
        rw [List.flatMap_assoc, errorNodes_flatMap]
        apply List.Perm.flatMap_left
        intro op hop
        rw [List.flatMap_map, errorNodes_flatMap, ← List.flatMap_id,
          List.flatMap_assoc]
        apply List.Perm.flatMap_left
        intro side hside
        refine errorNodes_walkParts fun part hpart sub hsub levels =>
          ih sub ?_ levels
        exact SpanTree.mem_descendants_of_mem_subtrees
          (Node.mem_descendants_of_mem_operations hop
            (mem_children_of_mem_side hside hpart)) hsub
      rw [Node.operations] at hops
      simp only [walkSetOperation, List.flatMap_append, errorNodes_append]
      exact (errorNodes_cteBodyWalks ih).append (hops _)
    · rw [walkRegionWith_parts w herror hsides]
      refine List.Perm.trans ?_ (errorsIn_parts_perm herror hsides).symm
      refine (errorNodes_walkParts fun part hpart sub hsub levels =>
        ih sub ?_ levels).trans
        ((errorNodes_cteBodyWalks ih).append_right _)
      exact SpanTree.mem_descendants_iff.2 ⟨part, hpart, hsub⟩

/-- The analysis of a file reports the errors that somebody looks at. -/
theorem errorNodes_events (w : Walker Id) (root : Node) :
    (errorNodes (w.events root)).Perm root.seenErrors := by
  rw [events, Node.regions, flatMap_filter_eq, flatMap_filter_eq,
    errorNodes_flatMap, Node.seenErrors]
  apply List.Perm.flatMap_left
  intro child _
  by_cases hblind : child.kind = .semicolon ∨ child.kind = .comma
      ∨ child.children = []
  · rw [rootSlot, if_pos hblind, errorsIn_true_blind]
    rcases hblind with h | h | h <;> simp [h, errorNodes]
  · rw [rootSlot, if_neg hblind]
    push Not at hblind
    obtain ⟨hsemicolon, hcomma, hchildren⟩ := hblind
    simp only [hsemicolon, hcomma, or_self, decide_false, Bool.not_false,
      if_true, List.isEmpty_eq_false_iff.2 hchildren]
    rw [rootEvents]
    split
    · next herror =>
        rw [errorsIn_eq]
        simp [herror, errorNodes, Event.errorNode]
    · exact errorNodes_walkRegion w child []

/-! ## Syntax diagnostics -/

/-- The syntax errors among the diagnostics are the events of errors. -/
theorem diagnose_syntaxError (w : Walker Id) (e : Event) :
    (w.diagnose e).filter (fun d => d.kind = .syntaxError) =
      e.errorNode.map syntaxDiagnostic := by
  cases e with
  | syntaxError node => simp [diagnose, Event.errorNode, syntaxDiagnostic,
      Diagnostic.new]
  | bound source =>
      rw [diagnose, sourceDiagnostic]
      cases source.unresolved with
      | none => rfl
      | some parts =>
          cases w.loaded <;>
            simp [Event.errorNode, unresolvedDiagnostic, Diagnostic.new]
  | resolve field levels =>
      have hnode : (Event.resolve field levels).errorNode = none := rfl
      rw [hnode, Option.map_none, Option.filter_eq_none_iff, diagnose]
      intro d hd
      simpa using (resolveField_eq_some hd).1

theorem syntaxDiagnostics_perm (w : Walker Id) (root : Node) :
    (((w.analyzeNow root).diagnostics.filter fun d =>
        d.kind = .syntaxError).map Diagnostic.range).Perm
      (root.seenErrors.map Node.range) := by
  have hfilter : ∀ events : List Event,
      ((events.filterMap w.diagnose).filter fun d =>
        d.kind = .syntaxError).map Diagnostic.range =
        (errorNodes events).map Node.range := by
    intro events
    rw [List.filter_filterMap, funext (diagnose_syntaxError w),
      ← List.map_filterMap, List.map_map]
    rfl
  rw [analyzeNow]
  refine (((Diagnostic.sorted_perm _).filter _).map _).trans ?_
  rw [hfilter]
  exact (errorNodes_events w root).map _

/-- The syntax errors reported are the outermost errors of the tree, each once,
if and only if no outermost error lies where nobody looks. If the root is itself
an error, then one error must be seen, and it must span the root. -/
theorem syntaxErrors_once_iff (w : Walker Id) (root : Node) :
    (((w.analyzeNow root).diagnostics.filter fun d =>
        d.kind = .syntaxError).map Diagnostic.range).Perm
        (root.errors.map Node.range) ↔
      (root.kind ≠ .error ∧ root.lostErrors = []) ∨
        (root.kind = .error ∧
          ∃ node, root.seenErrors = [node] ∧ node.range = root.range) := by
  rw [(syntaxDiagnostics_perm w root).congr_left]
  by_cases herror : root.kind = .error
  · have hroot : root.errors = [root] := by
      rw [Node.errors_eq, if_pos herror]
    rw [hroot, List.map_singleton, List.perm_singleton,
      List.map_eq_singleton_iff]
    simp [herror]
  · have hall := (Node.seen_append_lost_perm herror).map Node.range
    rw [hall.congr_right, List.map_append]
    simp only [ne_eq, herror, not_false_eq_true, true_and, false_and, or_false]
    constructor
    · intro hperm
      have hlength := hperm.length_eq
      rw [List.length_append, List.length_map, List.length_map] at hlength
      exact List.eq_nil_of_length_eq_zero (by omega)
    · intro hlost
      rw [hlost, List.map_nil, List.append_nil]

end Walker

/-! ## An error in the head of a CTE -/

section Sample

local instance asciiErrors : Unicode := Unicode.ascii

/-- `with a b c as (select 1) select 1` -/
def brokenCte : Node :=
  .node (.other "program") 0 33
    [.node .statement 0 33
      [.leaf (.keyword "with") 0 4,
        .node .cte 5 24
          [.leaf .identifier 5 6,
            .node .error 7 10 [.leaf .identifier 7 8, .leaf .identifier 9 10],
            .leaf .keywordAs 11 13, .leaf .openParen 14 15,
            .node .statement 15 23
              [.node .select 15 23
                [.leaf (.keyword "select") 15 21,
                  .node .selectExpression 22 23
                    [.node .term 22 23 [.leaf .literal 22 23]]]],
            .leaf .closeParen 23 24],
        .node .select 25 33
          [.leaf (.keyword "select") 25 31,
            .node .selectExpression 32 33
              [.node .term 32 33 [.leaf .literal 32 33]]]]]

/-- The error behind the CTE's name is not reported. -/
theorem error_in_cte_lost :
    ¬(((Walker.analyzeNow
          ⟨"with a b c as (select 1) select 1".toList, usersCatalog⟩
          brokenCte).diagnostics.filter fun d =>
        d.kind = .syntaxError).map Diagnostic.range).Perm
      (brokenCte.errors.map Node.range) := by
  decide +kernel

end Sample

end Tempr.Intel
