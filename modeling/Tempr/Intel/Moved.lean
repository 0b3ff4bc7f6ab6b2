import Tempr.Editor.Batch
import Tempr.Intel.ScopeRanges

/-!
# Walks of moved trees

The engine copies the positions of a tree, and compares none of them during a
walk. So when a tree is moved along its text, and the same names are read there,
the walk leaves the same events at the moved positions, and these have the same
diagnostics.
-/

namespace Tempr.Editor

/-- The range with its ends moved by `f`. -/
def ByteRange.move (f : ℕ → ℕ) (range : ByteRange) : ByteRange :=
  ⟨f range.start, f range.stop⟩

end Tempr.Editor

namespace Tempr.Intel

open Tempr.Support
open Tempr.Editor (ByteRange)

/-! ## What has a place -/

section Places

variable (f : ℕ → ℕ)

def Binding.move (binding : Binding) : Binding :=
  { binding with range := binding.range.move f }

def Frame.move (frame : Frame) : Frame :=
  ⟨frame.ctes.map (Binding.move f), frame.bindings.map (Binding.move f)⟩

/-- The parts of a name at their moved places. -/
def moveParts (parts : List (Text × ByteRange)) : List (Text × ByteRange) :=
  parts.map fun part => (part.1, part.2.move f)

def Source.move (source : Source) : Source :=
  ⟨source.binding.map (Binding.move f), source.unresolved.map (moveParts f)⟩

def Level.move (level : Level) : Level :=
  ⟨level.ctes.map (Binding.move f), level.sources.map (Source.move f)⟩

def Event.move : Event → Event
  | .syntaxError node => .syntaxError (node.move f)
  | .bound source => .bound (source.move f)
  | .resolve field levels => .resolve (field.move f) (levels.map (Level.move f))

def Resolution.move : Resolution → Resolution
  | .cte binding => .cte (binding.move f)
  | .catalog idx => .catalog idx
  | .none => .none

def Diagnostic.move (d : Diagnostic) : Diagnostic :=
  { d with range := d.range.move f }

end Places

variable {f : ℕ → ℕ}

theorem Level.frame_move (level : Level) :
    (level.move f).frame = level.frame.move f := by
  rw [frame, frame, move, Frame.move, List.filterMap_map, List.map_filterMap]
  rfl

theorem moveParts_eq_nil_iff {parts : List (Text × ByteRange)} :
    moveParts f parts = [] ↔ parts = [] :=
  List.map_eq_nil_iff

theorem moveParts_names (parts : List (Text × ByteRange)) :
    (moveParts f parts).map Prod.fst = parts.map Prod.fst := by
  rw [moveParts, List.map_map]
  rfl

theorem objectSpan_moveParts {parts : List (Text × ByteRange)}
    (h : parts ≠ []) :
    objectSpan (moveParts f parts) = (objectSpan parts).move f := by
  rw [objectSpan, objectSpan, moveParts, List.head?_map, List.getLast?_map,
    List.head?_eq_some_head h, List.getLast?_eq_some_getLast h]
  rfl

/-! ## Moved nodes -/

namespace Node

theorem range_move (node : Node) :
    Node.range (node.move f) = (Node.range node).move f := by
  rw [Node.range, SpanTree.start_move, SpanTree.stop_move]
  rfl

theorem direct_move (node : Node) (kind : NodeKind) :
    Node.direct (node.move f) kind =
      (node.direct kind).map (SpanTree.move f) := by
  rw [direct, direct, SpanTree.children_move, List.filter_map]
  congr 2
  funext child
  rw [Function.comp, SpanTree.kind_move]

theorem identifiers_move (node : Node) :
    Node.identifiers (node.move f) =
      node.identifiers.map (SpanTree.move f) := by
  rw [identifiers, identifiers, SpanTree.children_move, List.flatMap_map,
    List.map_flatMap]
  congr 1
  funext child
  exact SpanTree.topmost_move child

theorem subqueries_move (node : Node) :
    Node.subqueries (node.move f) =
      node.subqueries.map (SpanTree.move f) :=
  SpanTree.topmost_move node

theorem cteBody_move (cte : Node) :
    Node.cteBody (cte.move f) = cte.cteBody.map (SpanTree.move f) := by
  rw [cteBody, cteBody, direct_move, List.head?_map]

theorem mem_subtrees_of_mem_identifiers {node identifier : Node}
    (h : identifier ∈ node.identifiers) : identifier ∈ node.subtrees := by
  obtain ⟨child, hchild, h⟩ := List.mem_flatMap.1 h
  exact SpanTree.mem_subtrees_of_child hchild
    (SpanTree.mem_subtrees_of_mem_topmost h)

theorem mem_subtrees_of_mem_direct {node child : Node} {kind : NodeKind}
    (h : child ∈ node.direct kind) : child ∈ node.subtrees :=
  SpanTree.mem_subtrees_of_child (mem_direct.1 h).1
    (SpanTree.self_mem_subtrees child)

theorem isDeleteTargetClause_move (siblings : List Node) :
    isDeleteTargetClause (siblings.map (SpanTree.move f)) =
      isDeleteTargetClause siblings := by
  rw [isDeleteTargetClause, isDeleteTargetClause, List.any_map]
  congr 1
  funext sibling
  rw [Function.comp, SpanTree.kind_move]

theorem findSelectIn_move {children : List Node}
    (h : ∀ child ∈ children,
      findSelect (child.move f) = (findSelect child).map (SpanTree.move f)) :
    findSelectIn (children.map (SpanTree.move f)) =
      (findSelectIn children).map (SpanTree.move f) := by
  induction children with
  | nil => rfl
  | cons child rest ih =>
      rw [List.forall_mem_cons] at h
      rw [List.map_cons, findSelectIn, findSelectIn, SpanTree.kind_move, h.1,
        ih h.2]
      split
      · cases findSelect child <;> rfl
      · rfl

theorem findSelect_eq (node : Node) :
    findSelect node =
      if node.kind = .select then some node
      else findSelectIn node.children := by
  cases node
  rw [findSelect]
  rfl

theorem findSelect_move (node : Node) :
    findSelect (node.move f) = (findSelect node).map (SpanTree.move f) := by
  induction node using SpanTree.induction_children with
  | h node ih =>
      rw [findSelect_eq, findSelect_eq, SpanTree.kind_move,
        SpanTree.children_move]
      split
      · rfl
      · exact findSelectIn_move ih

theorem exists_mem_of_findSelectIn {children : List Node} {select : Node}
    (h : findSelectIn children = some select) :
    ∃ child ∈ children, findSelect child = some select := by
  induction children with
  | nil => cases h
  | cons child rest ih =>
      rw [findSelectIn] at h
      split at h
      · split at h
        · next found hfound =>
            exact ⟨child, List.mem_cons_self, hfound.trans h⟩
        · obtain ⟨other, hother, hfound⟩ := ih h
          exact ⟨other, List.mem_cons_of_mem _ hother, hfound⟩
      · obtain ⟨other, hother, hfound⟩ := ih h
        exact ⟨other, List.mem_cons_of_mem _ hother, hfound⟩

theorem mem_subtrees_of_findSelect {node select : Node}
    (h : findSelect node = some select) : select ∈ node.subtrees := by
  induction node using SpanTree.induction_children with
  | h node ih =>
      rw [findSelect_eq] at h
      split at h
      · obtain rfl := Option.some.inj h
        exact SpanTree.self_mem_subtrees _
      · obtain ⟨child, hchild, hfound⟩ := exists_mem_of_findSelectIn h
        exact SpanTree.mem_subtrees_of_child hchild (ih child hchild hfound)

theorem sidesFrom_move (side : Option (List Node)) (children : List Node) :
    sidesFrom (side.map (List.map (SpanTree.move f)))
        (children.map (SpanTree.move f)) =
      (sidesFrom side children).map (List.map (SpanTree.move f)) := by
  induction children generalizing side with
  | nil => cases side <;> rfl
  | cons child rest ih =>
      rw [List.map_cons, sidesFrom, sidesFrom, SpanTree.kind_move]
      split
      · have h := ih (some [child])
        rw [Option.map_some, List.map_singleton] at h
        rw [h]
        cases side <;> rfl
      · split
        · exact ih side
        · rw [← ih]
          cases side <;> simp

theorem setOperationSides_move (op : Node) :
    setOperationSides (op.move f) =
      (setOperationSides op).map (List.map (SpanTree.move f)) := by
  rw [setOperationSides, setOperationSides, SpanTree.children_move]
  exact sidesFrom_move none op.children

end Node

namespace Walker

variable {Id : Type} [DecidableEq Id] [Unicode] {w own : Walker Id}

/-! ## What is read -/

/-- Of the moved tree `w` reads what `own` reads of the tree. -/
structure Reads (w own : Walker Id) (f : ℕ → ℕ) (node : Node) : Prop where
  catalog : w.catalog = own.catalog
  text : ∀ m ∈ node.subtrees,
    w.textOf ((Node.range m).move f) = own.textOf (Node.range m)

section Reading

omit [DecidableEq Id] [Unicode]

theorem Reads.of_mem {node m : Node} (h : Reads w own f node)
    (hm : m ∈ node.subtrees) : Reads w own f m :=
  ⟨h.catalog, fun k hk => h.text k (SpanTree.mem_subtrees_trans hm hk)⟩

theorem textOf_move {node m : Node} (h : Reads w own f node)
    (hm : m ∈ node.subtrees) :
    w.textOf (Node.range (m.move f)) = own.textOf (Node.range m) := by
  rw [Node.range_move]
  exact h.text m hm

theorem identifierParts_move {node : Node} (h : Reads w own f node) :
    w.identifierParts (node.move f) = moveParts f (own.identifierParts node) := by
  rw [identifierParts, identifierParts, moveParts, Node.identifiers_move,
    List.map_map, List.map_map]
  apply List.map_congr_left
  intro identifier hmem
  rw [Function.comp, Function.comp,
    textOf_move h (Node.mem_subtrees_of_mem_identifiers hmem), Node.range_move]

theorem selectListColumns_move {region : Node} (h : Reads w own f region) :
    w.selectListColumns (region.move f) = own.selectListColumns region := by
  rw [selectListColumns, selectListColumns, Node.findSelect_move]
  cases hselect : findSelect region with
  | none => rfl
  | some select =>
      rw [Option.map_some]
      simp only [Node.direct_move, List.head?_map]
      cases hexpr : (Node.direct select .selectExpression).head? with
      | none => rfl
      | some expr =>
          have hmem : expr ∈ region.subtrees := SpanTree.mem_subtrees_trans
            (Node.mem_subtrees_of_findSelect hselect)
            (Node.mem_subtrees_of_mem_direct (List.mem_of_mem_head? hexpr))
          simp only [Option.map_some, Node.direct_move, List.filterMap_map]
          apply List.filterMap_congr
          intro term hterm
          have hterm : term ∈ region.subtrees :=
            SpanTree.mem_subtrees_trans hmem
              (Node.mem_subtrees_of_mem_direct hterm)
          rw [Function.comp, Node.direct_move, List.isEmpty_map,
            Node.identifiers_move, List.getLast?_map]
          cases hlast : (Node.identifiers term).getLast? with
          | none => rfl
          | some identifier =>
              have hidentifier := SpanTree.mem_subtrees_trans hterm
                (Node.mem_subtrees_of_mem_identifiers
                  (List.mem_of_getLast? hlast))
              rw [Option.map_some, Option.map_some, Option.map_some,
                textOf_move h hidentifier]

/-- What has been read of a CTE, at its moved place. -/
def CteHead.move (f : ℕ → ℕ) (head : CteHead) : CteHead :=
  { head with
    name := head.name.map fun name => (name.1, name.2.move f)
    body := head.body.map (SpanTree.move f) }

theorem readCte_move {cte child : Node} (h : Reads w own f cte)
    (hchild : child ∈ cte.children) (head : CteHead) :
    w.readCte (head.move f) (child.move f) = (own.readCte head child).move f := by
  have htext := textOf_move h (SpanTree.mem_subtrees_of_child hchild
    (SpanTree.self_mem_subtrees child))
  rw [readCte, readCte, SpanTree.kind_move]
  obtain ⟨name, explicit, depth, afterAs, body⟩ := head
  cases child.kind
  case identifier =>
    simp only [CteHead.move, Option.isNone_map, Option.isSome_map, htext]
    split
    · simp [Node.range_move]
    · split <;> rfl
  case statement =>
    simp only [CteHead.move, Option.isNone_map]
    split <;> rfl
  all_goals rfl

theorem foldl_readCte_move {cte : Node} (h : Reads w own f cte)
    {children : List Node}
    (hchildren : ∀ child ∈ children, child ∈ cte.children) (head : CteHead) :
    (children.map (SpanTree.move f)).foldl w.readCte (head.move f) =
      (children.foldl own.readCte head).move f := by
  induction children generalizing head with
  | nil => rfl
  | cons child rest ih =>
      rw [List.forall_mem_cons] at hchildren
      rw [List.map_cons, List.foldl_cons, List.foldl_cons,
        readCte_move h hchildren.1]
      exact ih hchildren.2 _

/-- The body of a CTE is one of its children. -/
theorem mem_children_of_readCte {cte : Node} {children : List Node}
    (hchildren : ∀ child ∈ children, child ∈ cte.children) {head : CteHead}
    (hhead : ∀ body, head.body = some body → body ∈ cte.children)
    {body : Node} (h : (children.foldl own.readCte head).body = some body) :
    body ∈ cte.children := by
  induction children generalizing head with
  | nil => exact hhead body h
  | cons child rest ih =>
      rw [List.forall_mem_cons] at hchildren
      refine ih hchildren.2 ?_ h
      intro body' hbody
      rw [readCte] at hbody
      split at hbody
      case h_4 => split at hbody <;> [skip; split at hbody] <;> exact hhead _ hbody
      case h_5 =>
        split at hbody
        · obtain rfl := Option.some.inj hbody
          exact hchildren.1
        · exact hhead _ hbody
      all_goals exact hhead _ hbody

theorem cteBinding_move {cte : Node} (h : Reads w own f cte) :
    w.cteBinding (cte.move f) = (own.cteBinding cte).move f := by
  have hhead := foldl_readCte_move h (fun _ hchild => hchild)
    ⟨none, [], 0, false, none⟩
  have hbody := @mem_children_of_readCte Id own cte cte.children
    (fun _ hchild => hchild) ⟨none, [], 0, false, none⟩ (fun _ h => nomatch h)
  rw [cteBinding, cteBinding, SpanTree.children_move, Node.range_move]
  rw [CteHead.move] at hhead
  simp only [Option.map_none] at hhead
  rw [hhead]
  generalize cte.children.foldl own.readCte ⟨none, [], 0, false, none⟩ = head
    at hbody
  obtain ⟨name, explicit, depth, afterAs, body⟩ := head
  cases body with
  | none => cases name <;> rfl
  | some body =>
      have hcolumns := selectListColumns_move (h.of_mem
        (SpanTree.mem_subtrees_of_child (hbody rfl)
          (SpanTree.self_mem_subtrees body)))
      cases name <;> simp [CteHead.move, Binding.move, hcolumns]

end Reading

/-! ## Sources -/

omit [DecidableEq Id] in
theorem find?_map_move (bindings : List Binding) (qualifier : Text) :
    (bindings.map (Binding.move f)).find? (·.matchesQualifier qualifier) =
      (bindings.find? (·.matchesQualifier qualifier)).map (Binding.move f) := by
  rw [List.find?_map]
  rfl

omit [DecidableEq Id] in
theorem resolveRelation_move (catalog : CatalogCache Id) (names : List Text)
    (ctes : List Binding) (outer : List Frame) :
    resolveRelation catalog names (ctes.map (Binding.move f))
        (outer.map (Frame.move f)) =
      (resolveRelation catalog names ctes outer).move f := by
  cases names with
  | nil => rfl
  | cons name rest =>
      cases rest with
      | nil =>
          have hfind : (ctes.map (Binding.move f)
                :: (outer.map (Frame.move f)).map Frame.ctes).findSome?
                (·.find? (·.matchesQualifier name)) =
              ((ctes :: outer.map Frame.ctes).findSome?
                (·.find? (·.matchesQualifier name))).map
                  (Binding.move f) := by
            have hframes : ctes.map (Binding.move f)
                :: (outer.map (Frame.move f)).map Frame.ctes =
                (ctes :: outer.map Frame.ctes).map
                  (List.map (Binding.move f)) := by
              simp [Frame.move]
            rw [hframes, List.findSome?_map, List.map_findSome?]
            congr 1
            funext bindings
            exact find?_map_move bindings name
          rw [resolveRelation, resolveRelation, hfind]
          cases (ctes :: outer.map Frame.ctes).findSome?
              (·.find? (·.matchesQualifier name)) with
          | some found => rfl
          | none =>
              cases hcatalog : resolveCatalogRel catalog none name <;>
                simp [Resolution.move]
      | cons next rest =>
          simp only [resolveRelation]
          split <;> rfl

section Sources

variable {ctes : List Binding} {outer : List Frame} {node : Node}
  (h : Reads w own f node)

include h

omit [DecidableEq Id] [Unicode] in
theorem aliasOf_move (identifier : Option Node)
    (hmem : ∀ m, identifier = some m → m ∈ node.subtrees) :
    w.aliasOf (identifier.map (SpanTree.move f)) = own.aliasOf identifier := by
  cases identifier with
  | none => rfl
  | some m => exact congrArg some (textOf_move h (hmem m rfl))

theorem bindTarget_move (alias? : Option Text) :
    w.bindTarget (ctes.map (Binding.move f)) (outer.map (Frame.move f))
        (node.move f) alias? =
      (own.bindTarget ctes outer node alias?).move f := by
  rw [bindTarget, bindTarget, identifierParts_move h]
  by_cases hparts : own.identifierParts node = []
  · rw [if_pos (moveParts_eq_nil_iff.2 hparts), if_pos hparts]
    rfl
  · rw [if_neg (mt moveParts_eq_nil_iff.1 hparts), if_neg hparts,
      moveParts_names, h.catalog, resolveRelation_move,
      objectSpan_moveParts hparts]
    cases resolveRelation own.catalog
      ((own.identifierParts node).map Prod.fst) ctes outer with
    | cte binding => rfl
    | catalog idx =>
        simp [Resolution.move, Source.move, Binding.move, catalogBinding,
          h.catalog]
    | none => rfl

theorem relationItem_move :
    w.relationItem (ctes.map (Binding.move f)) (outer.map (Frame.move f))
        (node.move f) =
      (own.relationItem ctes outer node).move f := by
  have hown := aliasOf_move h (node.direct .identifier).getLast?
    fun m hm => Node.mem_subtrees_of_mem_direct (List.mem_of_getLast? hm)
  have hparts : (((node.direct .objectReference).getLast?.map
        (SpanTree.move f)).map w.identifierParts).getD [] =
      moveParts f (((node.direct .objectReference).getLast?.map
        own.identifierParts).getD []) := by
    cases hname : (node.direct .objectReference).getLast? with
    | none => rfl
    | some name =>
        exact identifierParts_move (h.of_mem
          (Node.mem_subtrees_of_mem_direct (List.mem_of_getLast? hname)))
  rw [relationItem, relationItem]
  simp only [Node.direct_move, List.getLast?_map, hown, hparts,
    Node.range_move]
  cases hsub : (node.direct .subquery).getLast? with
  | some sub =>
      have hcolumns := selectListColumns_move (h.of_mem
        (Node.mem_subtrees_of_mem_direct (List.mem_of_getLast? hsub)))
      simp [Source.move, Binding.move, hcolumns]
  | none =>
      generalize ((node.direct .objectReference).getLast?.map
        own.identifierParts).getD [] = parts
      simp only [Option.map_none]
      by_cases hnil : parts = []
      · rw [if_pos (moveParts_eq_nil_iff.2 hnil), if_pos hnil]
        rfl
      · rw [if_neg (mt moveParts_eq_nil_iff.1 hnil), if_neg hnil,
          moveParts_names, h.catalog, resolveRelation_move,
          objectSpan_moveParts hnil]
        cases resolveRelation own.catalog (parts.map Prod.fst) ctes outer with
        | cte binding => rfl
        | catalog idx =>
            simp [Resolution.move, Source.move, Binding.move, catalogBinding,
              h.catalog]
        | none =>
            simp [Resolution.move, Source.move, Binding.move, moveParts,
              Function.comp_def]

omit [DecidableEq Id] [Unicode] in
theorem lateralItem_move :
    w.lateralItem (node.move f) = (own.lateralItem node).move f := by
  have hown := aliasOf_move h (node.direct .identifier).head?
    fun m hm => Node.mem_subtrees_of_mem_direct (List.mem_of_mem_head? hm)
  have hcolumns : (((node.direct .subquery).head?.map
        (SpanTree.move f)).map w.selectListColumns).getD [] =
      ((node.direct .subquery).head?.map own.selectListColumns).getD [] := by
    cases hsub : (node.direct .subquery).head? with
    | none => rfl
    | some sub =>
        exact selectListColumns_move (h.of_mem
          (Node.mem_subtrees_of_mem_direct (List.mem_of_mem_head? hsub)))
  rw [lateralItem, lateralItem]
  simp only [Node.direct_move, List.head?_map, hown, hcolumns, Node.range_move]
  split <;> rfl

theorem dmlTarget_move :
    w.dmlTarget (ctes.map (Binding.move f)) (outer.map (Frame.move f))
        (node.move f) =
      (own.dmlTarget ctes outer node).map (Source.move f) := by
  rw [dmlTarget, dmlTarget, Node.direct_move, List.head?_map]
  cases htarget : (node.direct .objectReference).head? with
  | none => rfl
  | some target =>
      exact congrArg (fun source => [source]) (bindTarget_move (h.of_mem
        (Node.mem_subtrees_of_mem_direct (List.mem_of_mem_head? htarget))) none)

theorem dmlFrom_move :
    w.dmlFrom (ctes.map (Binding.move f)) (outer.map (Frame.move f))
        (node.move f) =
      (own.dmlFrom ctes outer node).map (Source.move f) := by
  have hown := aliasOf_move h (node.direct .identifier).head?
    fun m hm => Node.mem_subtrees_of_mem_direct (List.mem_of_mem_head? hm)
  rw [dmlFrom, dmlFrom, Node.direct_move, Node.direct_move, List.head?_map,
    List.head?_map, hown]
  cases htarget : (node.direct .objectReference).head? with
  | none => rfl
  | some target =>
      exact congrArg (fun source => [source]) (bindTarget_move (h.of_mem
        (Node.mem_subtrees_of_mem_direct (List.mem_of_mem_head? htarget))) _)

theorem phaseA_move (siblings : List Node) :
    w.phaseA (ctes.map (Binding.move f)) (outer.map (Frame.move f))
        (siblings.map (SpanTree.move f)) (node.move f) =
      ((own.phaseA ctes outer siblings node).1.map (Source.move f),
        (own.phaseA ctes outer siblings node).2) := by
  rw [phaseA, phaseA, SpanTree.kind_move, relationItem_move h,
    lateralItem_move h, dmlTarget_move h, dmlFrom_move h,
    Node.isDeleteTargetClause_move]
  split
  · rfl
  · cases node.kind
    case fromClause => dsimp only; split <;> rfl
    all_goals rfl

end Sources

/-! ## Walks -/

omit [DecidableEq Id] [Unicode] in
theorem resolveStep_move (levels : List Level) (node : Node) :
    resolveStep (levels.map (Level.move f)) (node.move f) =
      ((resolveStep levels node).1.map (Event.move f),
        (resolveStep levels node).2) := by
  rw [resolveStep, resolveStep, SpanTree.kind_move]
  cases node.kind <;> rfl

omit [DecidableEq Id] [Unicode] in
theorem resolvePart_move (levels : List Level) (part : Node) :
    resolvePart (levels.map (Level.move f)) (part.move f) =
      (resolvePart levels part).map (Event.move f) := by
  rw [resolvePart, resolvePart, SpanTree.kind_move]
  split
  · rfl
  · exact SpanTree.visitStack_move fun m _ => resolveStep_move levels m

section Regions

variable {inner inner' : Node → List Level → Walk}

omit [DecidableEq Id] [Unicode] in
theorem events_partWalks_move {part : Node}
    (h : ∀ sub ∈ part.subtrees, ∀ levels,
      (inner' (sub.move f) (levels.map (Level.move f))).events =
        (inner sub levels).events.map (Event.move f)) (levels : List Level) :
    (partWalks inner' (levels.map (Level.move f)) (part.move f)).flatMap
        Walk.events =
      ((partWalks inner levels part).flatMap Walk.events).map
        (Event.move f) := by
  rw [partWalks, partWalks, SpanTree.kind_move]
  split
  · simpa using h part (SpanTree.self_mem_subtrees part) levels
  · rw [Node.subqueries_move, List.map_map, List.flatMap_map, List.flatMap_map,
      List.map_flatMap]
    apply List.flatMap_congr
    intro sub hsub
    exact h sub (Node.mem_subtrees_of_mem_subqueries hsub) levels

omit [DecidableEq Id] [Unicode] in
theorem events_cteBodyWalks_move {region : Node}
    (h : ∀ sub ∈ region.descendants, ∀ levels,
      (inner' (sub.move f) (levels.map (Level.move f))).events =
        (inner sub levels).events.map (Event.move f))
    (ctes : List Binding) (outer : List Level) :
    (cteBodyWalks inner' (some (region.move f)) (ctes.map (Binding.move f))
        (outer.map (Level.move f))).flatMap Walk.events =
      ((cteBodyWalks inner (some region) ctes outer).flatMap
        Walk.events).map (Event.move f) := by
  have hlevels : ∀ n, (⟨(ctes.map (Binding.move f)).take n, []⟩ : Level)
      :: outer.map (Level.move f) =
        ((⟨ctes.take n, []⟩ : Level) :: outer).map (Level.move f) := by
    intro n
    simp [Level.move]
  rw [cteBodyWalks, cteBodyWalks, Option.map_some, Option.map_some,
    Option.getD_some, Option.getD_some, Node.direct_move, List.zipIdx_map,
    List.filterMap_map, List.filterMap_eq_flatMap_toList,
    List.filterMap_eq_flatMap_toList, List.flatMap_assoc, List.flatMap_assoc,
    List.map_flatMap]
  apply List.flatMap_congr
  intro p hp
  have hcte : p.1 ∈ region.direct .cte := List.fst_mem_of_mem_zipIdx hp
  simp only [Function.comp, Prod.map, id, Node.cteBody_move]
  cases hbody : Node.cteBody p.1 with
  | none => rfl
  | some body =>
      simp only [Option.map_some, Option.toList_some, List.flatMap_singleton,
        hlevels]
      exact h body (Node.mem_descendants_of_cteBody hcte hbody) _

theorem level_move {siblings parts : List Node} {outer : List Level}
    {ctes : List Binding} (h : ∀ part ∈ parts, Reads w own f part) :
    w.groupLevel ⟨siblings.map (SpanTree.move f), parts.map (SpanTree.move f)⟩
        (ctes.map (Binding.move f)) (outer.map (Level.move f)) =
      (own.groupLevel ⟨siblings, parts⟩ ctes outer).move f := by
  have hframes : (outer.map (Level.move f)).map Level.frame =
      (outer.map Level.frame).map (Frame.move f) := by
    rw [List.map_map, List.map_map]
    apply List.map_congr_left
    intro level _
    exact level.frame_move
  rw [groupLevel, groupLevel, Level.move, hframes]
  congr 1
  rw [List.flatMap_map, List.map_flatMap]
  apply List.flatMap_congr
  intro part hpart
  exact SpanTree.visitIn_move (fun m hm siblings =>
    phaseA_move ((h part hpart).of_mem hm) siblings) siblings

theorem events_walkParts_move {siblings parts : List Node}
    {range range' : ByteRange} (ctes : List Binding) (outer : List Level)
    {owner owner' : Option Node}
    (hreads : ∀ part ∈ parts, Reads w own f part)
    (howner : (cteBodyWalks inner' owner' (ctes.map (Binding.move f))
        (outer.map (Level.move f))).flatMap Walk.events =
      ((cteBodyWalks inner owner ctes outer).flatMap Walk.events).map
        (Event.move f))
    (h : ∀ part ∈ parts, ∀ sub ∈ part.subtrees, ∀ levels,
      (inner' (sub.move f) (levels.map (Level.move f))).events =
        (inner sub levels).events.map (Event.move f)) :
    (w.walkParts inner' (siblings.map (SpanTree.move f))
        (parts.map (SpanTree.move f)) range' (ctes.map (Binding.move f)) owner'
        (outer.map (Level.move f))).events =
      (own.walkParts inner siblings parts range ctes owner outer).events.map
        (Event.move f) := by
  have hlevels : w.groupLevel ⟨siblings.map (SpanTree.move f),
        parts.map (SpanTree.move f)⟩ (ctes.map (Binding.move f))
          (outer.map (Level.move f)) :: outer.map (Level.move f) =
      (own.groupLevel ⟨siblings, parts⟩ ctes outer :: outer).map
        (Level.move f) := by
    rw [level_move hreads, List.map_cons]
  rw [events_walkParts w inner' ⟨siblings.map (SpanTree.move f),
      parts.map (SpanTree.move f)⟩,
    events_walkParts own inner ⟨siblings, parts⟩, List.map_append,
    List.map_append, List.map_append, howner, hlevels, level_move hreads]
  congr 2
  · rw [Level.move, List.map_map, List.map_map]
    rfl
  · congr 1
    rw [List.flatMap_map, List.map_flatMap]
    apply List.flatMap_congr
    intro part hpart
    exact events_partWalks_move (h part hpart) _
  · rw [List.flatMap_map, List.map_flatMap]
    apply List.flatMap_congr
    intro part _
    exact resolvePart_move _ part

theorem events_walkSetOperation_move {region : Node} {ctes : List Binding}
    {outer : List Level} (hreads : Reads w own f region)
    (h : ∀ sub ∈ region.descendants, ∀ levels,
      (inner' (sub.move f) (levels.map (Level.move f))).events =
        (inner sub levels).events.map (Event.move f)) :
    (w.walkSetOperation inner' (region.move f) (ctes.map (Binding.move f))
        (outer.map (Level.move f))
        (Node.direct (region.move f) .setOperation)).events =
      (own.walkSetOperation inner region ctes outer
        (region.direct .setOperation)).events.map (Event.move f) := by
  have hops : (if SpanTree.kind (region.move f) = .setOperation
      then [region.move f] else Node.direct (region.move f) .setOperation) =
        region.operations.map (SpanTree.move f) := by
    rw [Node.operations, SpanTree.kind_move, Node.direct_move]
    split <;> rfl
  simp only [walkSetOperation, hops, List.flatMap_append, List.map_append,
    events_cteBodyWalks_move h]
  congr 1
  rw [List.flatMap_assoc, List.flatMap_assoc, List.flatMap_map,
    List.map_flatMap]
  apply List.flatMap_congr
  intro op hop
  rw [Node.setOperationSides_move, List.map_map, List.flatMap_map,
    List.flatMap_map, List.map_flatMap]
  apply List.flatMap_congr
  intro side hside
  have hpart : ∀ part ∈ side, part ∈ region.descendants := fun part hpart =>
    Node.mem_descendants_of_mem_operations hop
      (mem_children_of_mem_side hside hpart)
  rw [Function.comp, SpanTree.children_move]
  refine events_walkParts_move [] (⟨ctes, []⟩ :: outer) ?_ rfl ?_
  · intro part hmem
    exact hreads.of_mem (SpanTree.mem_subtrees_of_mem_descendants (hpart part hmem))
  · intro part hmem sub hsub
    exact h sub (SpanTree.mem_descendants_of_mem_subtrees (hpart part hmem) hsub)

/-- The walk of a moved region leaves the events of the region, moved. -/
theorem events_walkRegion_move {region : Node} (hreads : Reads w own f region)
    (outer : List Level) :
    (w.walkRegion (region.move f) (outer.map (Level.move f))).events =
      (own.walkRegion region outer).events.map (Event.move f) := by
  induction region using SpanTree.induction_descendants generalizing outer with
  | h region ih =>
      have hinner : ∀ sub ∈ region.descendants, ∀ levels,
          (w.walkRegion (sub.move f) (levels.map (Level.move f))).events =
            (own.walkRegion sub levels).events.map (Event.move f) :=
        fun sub hsub levels => ih sub hsub
          (hreads.of_mem (SpanTree.mem_subtrees_of_mem_descendants hsub)) levels
      have hctes : (Node.direct (region.move f) .cte).map w.cteBinding =
          ((Node.direct region .cte).map own.cteBinding).map (Binding.move f) := by
        rw [Node.direct_move, List.map_map, List.map_map]
        apply List.map_congr_left
        intro cte hcte
        exact cteBinding_move
          (hreads.of_mem (Node.mem_subtrees_of_mem_direct hcte))
      rw [walkRegion_eq, walkRegion_eq]
      by_cases herror : region.kind = .error
      · rw [walkRegionWith_error own herror,
          walkRegionWith_error w (by rwa [SpanTree.kind_move])]
        rfl
      · have herror' : SpanTree.kind (region.move f) ≠ .error := by
          rwa [SpanTree.kind_move]
        have hsides : Node.hasSides (region.move f) ↔ Node.hasSides region := by
          rw [Node.hasSides, Node.hasSides, SpanTree.kind_move,
            Node.direct_move, ne_eq, List.map_eq_nil_iff]
        by_cases hset : Node.hasSides region
        · rw [walkRegionWith_sides own herror hset,
            walkRegionWith_sides w herror' (hsides.2 hset), hctes]
          exact events_walkSetOperation_move hreads hinner
        · rw [walkRegionWith_parts own herror hset,
            walkRegionWith_parts w herror' (mt hsides.1 hset), hctes,
            SpanTree.children_move]
          refine events_walkParts_move _ outer ?_ ?_ ?_
          · intro part hpart
            exact hreads.of_mem (SpanTree.mem_subtrees_of_child hpart
              (SpanTree.self_mem_subtrees part))
          · exact events_cteBodyWalks_move hinner _ _
          · intro part hpart sub hsub
            exact hinner sub (SpanTree.mem_descendants_iff.2
              ⟨part, hpart, hsub⟩)

end Regions

/-! ## Diagnostics -/

/-- The column references of a walk are nodes of its region. -/
theorem field_of_resolve {region field : Node} {outer levels : List Level}
    (h : Event.resolve field levels ∈ (own.walkRegion region outer).events) :
    field ∈ region.subtrees ∧ SpanTree.kind field = .field := by
  obtain ⟨r, hr, ⟨-, hnode⟩ | ⟨group, hgroup, ctes, outer', he⟩⟩ :=
    arises_of_mem_events h
  · cases hnode
  · rw [groupEvents, List.mem_append, List.mem_flatMap] at he
    rcases he with hbound | ⟨part, hpart, hresolve⟩
    · simp at hbound
    · have hfield := (resolve_mem_resolvePart hresolve).2
      exact ⟨SpanTree.mem_subtrees_trans
        (Node.mem_subtrees_of_mem_regionsWithin hr)
        (SpanTree.mem_subtrees_trans
          (SpanTree.mem_subtrees_of_mem_descendants
            (Node.mem_descendants_of_mem_groups hgroup hpart))
          (Node.mem_subtrees_of_mem_fields hfield)),
        Node.kind_of_mem_fields hfield⟩

/-- A source that does not resolve has a name. -/
theorem parts_ne_nil_of_bound {region : Node} {outer : List Level}
    {source : Source} {parts : List (Text × ByteRange)}
    (h : Event.bound source ∈ (own.walkRegion region outer).events)
    (hparts : source.unresolved = some parts) : parts ≠ [] := by
  obtain ⟨r, -, ⟨-, hnode⟩ | ⟨group, -, ctes, outer', he⟩⟩ :=
    arises_of_mem_events h
  · cases hnode
  · rw [groupEvents, List.mem_append, List.mem_flatMap] at he
    rcases he with hbound | ⟨part, -, hresolve⟩
    · have hsource : source ∈ (own.groupLevel group ctes outer').sources := by
        simpa using hbound
      obtain ⟨part, -, hsource⟩ := List.mem_flatMap.1 hsource
      obtain ⟨-, -, -, hne⟩ := SpanTree.exists_mem_visitIn
        (g := Node.nameStep)
        (fun _ _ hmem => unresolved_mem_nameStep hmem hparts)
        (fun siblings node hgo =>
          (phaseA_snd own ctes _ siblings node).symm.trans hgo) hsource
      exact hne
    · exact absurd hresolve bound_notMem_resolvePart

end Walker

section References

variable {Id : Type} [DecidableEq Id] [Unicode] {catalog : CatalogCache Id}

omit [DecidableEq Id] in
theorem bareHits_move (name : Text) (frame : Frame) :
    bareHits catalog name (frame.move f) = bareHits catalog name frame := by
  rw [bareHits, bareHits, Frame.move, List.filter_map, List.map_map]
  rfl

omit [Unicode] in
theorem Frame.anyColumns_move (frame : Frame) :
    (frame.move f).anyColumns = frame.anyColumns := by
  rw [anyColumns, anyColumns, Frame.move, List.any_map]
  rfl

omit [DecidableEq Id] in
theorem resolveBare_move (name : Text) (range : ByteRange) (anyColumns : Bool)
    (frames : List Frame) :
    resolveBare catalog name (range.move f) anyColumns
        (frames.map (Frame.move f)) =
      (resolveBare catalog name range anyColumns frames).map
        (Diagnostic.move f) := by
  induction frames generalizing anyColumns with
  | nil =>
      rw [List.map_nil, resolveBare, resolveBare]
      split <;> rfl
  | cons frame frames ih =>
      rw [List.map_cons, resolveBare, resolveBare, bareHits_move,
        Frame.anyColumns_move]
      split
      · exact ih _
      · rfl
      · rfl

theorem lookupQualifier_move (frames : List Frame) (qualifier : Text) :
    lookupQualifier (frames.map (Frame.move f)) qualifier =
      (lookupQualifier frames qualifier).map (Binding.move f) := by
  rw [lookupQualifier, lookupQualifier, List.findSome?_map,
    List.map_findSome?]
  congr 1
  funext frame
  simp only [Function.comp, Frame.qualifier, Frame.move,
    Walker.find?_map_move, Option.map_or]

omit [DecidableEq Id] in
theorem resolveAgainst_move (binding : Binding) (column : Text)
    (range : ByteRange) (qualifier : Text) :
    resolveAgainst catalog (binding.move f) column (range.move f) qualifier =
      (resolveAgainst catalog binding column range qualifier).map
        (Diagnostic.move f) := by
  have hhits : (binding.move f).columnHits column catalog =
      binding.columnHits column catalog := rfl
  have hcolumns : (binding.move f).columns = binding.columns := rfl
  rw [resolveAgainst, resolveAgainst, hhits, hcolumns]
  split
  · rfl
  · split <;> rfl

theorem resolveCatalogColumns_move (relation : ℕ) (column : Text)
    (range : ByteRange) :
    resolveCatalogColumns catalog relation column (range.move f) =
      (resolveCatalogColumns catalog relation column range).map
        (Diagnostic.move f) := by
  rw [resolveCatalogColumns, resolveCatalogColumns]
  split <;> rfl

theorem resolveReference_move (frames : List Frame)
    (refs : List (Text × ByteRange)) :
    resolveReference catalog (frames.map (Frame.move f)) (moveParts f refs) =
      (resolveReference catalog frames refs).map (Diagnostic.move f) := by
  rw [resolveReference, resolveReference, moveParts, ← List.map_reverse]
  rcases refs.reverse with - | ⟨⟨column, range⟩, - | ⟨⟨qualifier, qrange⟩, - |
    ⟨⟨schema, srange⟩, rest⟩⟩⟩
  · rfl
  · exact resolveBare_move column range false frames
  · simp only [List.map_cons, List.map_nil, lookupQualifier_move]
    cases lookupQualifier frames qualifier with
    | none => rfl
    | some binding => exact resolveAgainst_move binding column range qualifier
  · simp only [List.map_cons]
    cases resolveCatalogRel catalog (some schema) qualifier with
    | none => rfl
    | some idx => exact resolveCatalogColumns_move idx column range

end References

namespace Walker

variable {Id : Type} [DecidableEq Id] [Unicode] {w own : Walker Id}

/-- The events of a moved region have the diagnostics of the region, moved. -/
theorem diagnose_walkRegion_move {region : Node} (hreads : Reads w own f region)
    (outer : List Level) :
    (w.walkRegion (region.move f) (outer.map (Level.move f))).events.filterMap
        w.diagnose =
      ((own.walkRegion region outer).events.filterMap own.diagnose).map
        (Diagnostic.move f) := by
  rw [events_walkRegion_move hreads, List.filterMap_map, List.map_filterMap]
  apply List.filterMap_congr
  intro e he
  have hloaded : w.loaded = own.loaded := by
    rw [loaded, loaded, hreads.catalog]
  rw [Function.comp]
  cases e with
  | syntaxError node =>
      rw [Event.move, diagnose, diagnose, syntaxDiagnostic, syntaxDiagnostic,
        Node.range_move]
      rfl
  | bound source =>
      rw [Event.move, diagnose, diagnose, sourceDiagnostic, sourceDiagnostic,
        Source.move, hloaded]
      cases hparts : source.unresolved with
      | none => rfl
      | some parts =>
          simp only [Option.map_some, unresolvedDiagnostic, moveParts_names,
            objectSpan_moveParts (parts_ne_nil_of_bound he hparts)]
          split <;> rfl
  | resolve field levels =>
      have hframes : (levels.map (Level.move f)).map Level.frame =
          (levels.map Level.frame).map (Frame.move f) := by
        rw [List.map_map, List.map_map]
        apply List.map_congr_left
        intro level _
        exact level.frame_move
      rw [Event.move, diagnose, diagnose, resolveField, resolveField, hloaded,
        hframes, identifierParts_move (hreads.of_mem (field_of_resolve he).1),
        hreads.catalog, resolveReference_move]
      split <;> rfl

end Walker

end Tempr.Intel
