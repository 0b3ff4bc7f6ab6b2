import Tempr.Intel.Moved
import Tempr.Intel.Outer

/-!
# Statements by themselves

The statements at the top of a file are walked one by one. Those of a transaction
or a block are the clauses of one region and share its level, so that each sees
the sources of all.
-/

namespace Tempr.Intel

open Tempr.Support
open Tempr.Editor (ByteRange Rope)

namespace NodeKind

/-- Tokens and comments beside statements. -/
def isTrivia (kind : NodeKind) : Bool :=
  kind.isKeyword || decide (kind = semicolon ∨ kind = comment
    ∨ kind = other "marginalia")

/-- What holds statements. -/
def holdsStatements (kind : NodeKind) : Bool :=
  decide (kind = transaction ∨ kind = block)

theorem ne_of_flag {p : NodeKind → Bool} {kind other : NodeKind}
    (h : p kind = true) (hother : p other = false) : kind ≠ other := by
  rintro rfl
  rw [h] at hother
  cases hother

end NodeKind

namespace Node

/-- A statement, or a token or comment beside it. -/
def IsPart (node : Node) : Prop :=
  node.kind = .statement ∨ node.kind.isTrivia = true ∧ node.children = []

/-- A file of complete statements, transactions and blocks. -/
def CompleteFile (root : Node) : Prop :=
  ∀ child ∈ root.children, IsPart child ∨
    (SpanTree.kind child).holdsStatements = true ∧
      ∀ part ∈ SpanTree.children child, IsPart part

/-- The statements of a file: those at its top, and those directly inside a
transaction or block. -/
def fileStatements (root : Node) : List Node :=
  root.children.flatMap fun child =>
    if child.kind = .statement then [child]
    else if child.kind.holdsStatements then child.direct .statement
    else []

/-- The tree of a file that holds the statement alone. -/
def alone (statement : Node) : Node :=
  .node (.other "program") 0 (statement.stop - statement.start)
    [statement.move (· - statement.start)]

/-- The node at a place where a source may be collected, and whether there may be
more below. -/
def sourceStep (siblings : List Node) (node : Node) : List Node × Bool :=
  if node.kind.bindsNothing then ([], false)
  else
    match node.kind with
    | .relation => ([node], false)
    | .lateralJoin => ([node], false)
    | .lateralCrossJoin => ([node], false)
    | .fromClause =>
        (if isDeleteTargetClause siblings then [node] else [], true)
    | .insert => ([node], true)
    | _ => ([], true)

/-- Nothing in the statement is a source of it. -/
def SourceFree (statement : Node) : Prop :=
  statement.children.flatMap
    (SpanTree.visitIn sourceStep statement.children) = []

/-- There is no column reference in the statement. -/
def FieldFree (statement : Node) : Prop :=
  ∀ node ∈ statement.subtrees, SpanTree.kind node ≠ .field

/-- No reference of the one can see a source of the other. -/
def Apart (a b : Node) : Prop :=
  (SourceFree a ∨ FieldFree b) ∧ (SourceFree b ∨ FieldFree a)

/-- In every transaction and block the statements do without CTEs and set
operations of their own, and are apart from each other. -/
def Unshared (root : Node) : Prop :=
  ∀ child ∈ root.children, (SpanTree.kind child).holdsStatements = true →
    (∀ statement ∈ Node.direct child .statement,
      statement.direct .cte = [] ∧ statement.direct .setOperation = []) ∧
    (Node.direct child .statement).Pairwise Apart

instance (node : Node) : Decidable (IsPart node) :=
  inferInstanceAs (Decidable (_ ∨ _))

instance (root : Node) : Decidable (CompleteFile root) :=
  inferInstanceAs (Decidable (∀ child ∈ _, _ ∨ _))

instance (statement : Node) : Decidable (SourceFree statement) :=
  inferInstanceAs (Decidable (_ = _))

instance (statement : Node) : Decidable (FieldFree statement) :=
  inferInstanceAs (Decidable (∀ node ∈ _, _))

instance (a b : Node) : Decidable (Apart a b) :=
  inferInstanceAs (Decidable (_ ∧ _))

instance (root : Node) : Decidable (Unshared root) :=
  inferInstanceAs (Decidable (∀ child ∈ _, _ → _))

end Node

/-- Where all but one element contribute nothing, it contributes all. -/
theorem flatMap_eq_of_pairwise {α β : Type*} {f : α → List β}
    {P : α → Prop} {l : List α} {a : α}
    (h : l.Pairwise fun x y =>
      (f x = [] ∨ P y) ∧ (f y = [] ∨ P x)) (ha : a ∈ l)
    (hfree : ¬P a) : l.flatMap f = f a := by
  obtain ⟨before, after, rfl⟩ := List.append_of_mem ha
  obtain ⟨-, hafter, hbefore⟩ := List.pairwise_append.1 h
  have hnone : ∀ x ∈ before, f x = [] := fun x hx =>
    (hbefore x hx a List.mem_cons_self).1.resolve_right hfree
  have hnone' : ∀ x ∈ after, f x = [] := fun x hx =>
    ((List.pairwise_cons.1 hafter).1 x hx).2.resolve_right hfree
  rw [List.flatMap_append, List.flatMap_cons,
    List.flatMap_eq_nil_iff.2 hnone, List.flatMap_eq_nil_iff.2 hnone',
    List.nil_append, List.append_nil]

/-! ## The text of a statement -/

namespace Walker

variable {Id : Type}

/-- What reads the file that holds the statement alone. -/
def alone (w : Walker Id) (statement : Node) : Walker Id :=
  ⟨w.textOf (Node.range statement), w.catalog⟩

theorem textOf_of_valid {w : Walker Id} {range : ByteRange}
    (h : range.Valid w.text) :
    w.textOf range = w.text.byteSlice range.start range.stop := by
  rw [textOf, Rope.charRange_of_valid h]
  rfl

theorem textOf_of_not_valid {w : Walker Id} {range : ByteRange}
    (h : ¬range.Valid w.text) : w.textOf range = [] := by
  rw [textOf]
  split
  · next hok =>
      exact absurd ((Rope.charRange_isOk_iff _ _).1 (by rw [hok]; rfl)) h
  · rfl

/-- In the middle of a text the valid ranges are those of the middle. -/
theorem valid_middle_iff {a m b : Rope} {start stop : ℕ} (hle : start ≤ stop)
    (hstop : stop ≤ Rope.lenBytes m) :
    ByteRange.Valid (a ++ m ++ b)
        ⟨start + Rope.lenBytes a, stop + Rope.lenBytes a⟩ ↔
      ByteRange.Valid m ⟨start, stop⟩ := by
  have hbound : ∀ {o}, o ≤ Rope.lenBytes m →
      ((a ++ m ++ b).IsCharBoundary (o + Rope.lenBytes a) ↔
        m.IsCharBoundary o) := by
    intro o ho
    rw [Nat.add_comm, List.append_assoc]
    exact (isBoundary_append_right_iff Rope.utf8Size_pos a (m ++ b) o).trans
      (isBoundary_append_left_iff Rope.utf8Size_pos m b ho)
  constructor
  · intro h
    exact ⟨hle, hstop, (hbound (Nat.le_trans hle hstop)).1 h.startBoundary,
      (hbound hstop).1 h.stopBoundary⟩
  · intro h
    refine ⟨Nat.add_le_add_right hle _, ?_,
      (hbound (Nat.le_trans hle hstop)).2 h.startBoundary,
      (hbound hstop).2 h.stopBoundary⟩
    change stop + Rope.lenBytes a ≤ _
    rw [Rope.lenBytes_append, Rope.lenBytes_append]
    omega

/-- A text and one that holds it read the same in its ranges. -/
theorem textOf_middle {w own : Walker Id} {a b : Rope}
    (h : w.text = a ++ own.text ++ b) {start stop : ℕ} (hle : start ≤ stop)
    (hstop : stop ≤ Rope.lenBytes own.text) :
    w.textOf ⟨start + Rope.lenBytes a, stop + Rope.lenBytes a⟩ =
      own.textOf ⟨start, stop⟩ := by
  have hiff := valid_middle_iff (a := a) (b := b) hle hstop
  rw [← h] at hiff
  by_cases hvalid : ByteRange.Valid own.text ⟨start, stop⟩
  · rw [textOf_of_valid (hiff.2 hvalid), textOf_of_valid hvalid]
    obtain ⟨t, m, u, hown, ht, hm⟩ := hvalid.parts
    dsimp only at ht hm
    have hw : w.text = (a ++ t) ++ m ++ (u ++ b) := by
      rw [h, hown]
      simp
    have hstart' : start + Rope.lenBytes a = Rope.lenBytes (a ++ t) := by
      rw [Rope.lenBytes_append]
      omega
    have hstop' : stop + Rope.lenBytes a =
        Rope.lenBytes (a ++ t) + Rope.lenBytes m := by
      rw [Rope.lenBytes_append]
      omega
    rw [hw, hstart', hstop', Rope.byteSlice_parts, hown, ← ht, ← hm,
      Rope.byteSlice_parts]
  · rw [textOf_of_not_valid (mt hiff.1 hvalid), textOf_of_not_valid hvalid]

/-- What is read of a statement is read of it alone. -/
theorem reads_alone {w : Walker Id} {statement : Node}
    (hordered : SpanTree.Ordered statement)
    (hvalid : (Node.range statement).Valid w.text) :
    Reads w (w.alone statement) (· + statement.start)
      (statement.move (· - statement.start)) := by
  refine ⟨rfl, ?_⟩
  intro m hm
  rw [SpanTree.subtrees_move] at hm
  obtain ⟨node, hnode, rfl⟩ := List.mem_map.1 hm
  obtain ⟨a, text, b, htext, hstart, hstop⟩ := hvalid.parts
  have hspan : (w.alone statement).text = text := by
    change w.textOf (Node.range statement) = text
    rw [textOf_of_valid hvalid, htext, ← hstart, ← hstop,
      Rope.byteSlice_parts]
  obtain ⟨hwithin, hwithin'⟩ := hordered.within hnode
  have hle := (hordered node hnode).start_le_stop
  have hlen : node.stop - statement.start ≤ Rope.lenBytes text := by
    change Rope.lenBytes a + Rope.lenBytes text = statement.stop at hstop
    change Rope.lenBytes a = statement.start at hstart
    omega
  have hparts : w.text = a ++ (w.alone statement).text ++ b := by
    rw [hspan, htext]
  have hmiddle : w.textOf ⟨node.start - statement.start + Rope.lenBytes a,
        node.stop - statement.start + Rope.lenBytes a⟩ =
      (w.alone statement).textOf
        ⟨node.start - statement.start, node.stop - statement.start⟩ :=
    textOf_middle hparts (by omega) (by rwa [hspan])
  rw [Node.range_move]
  change Rope.lenBytes a = statement.start at hstart
  rw [hstart] at hmiddle
  exact hmiddle

/-! ## A statement alone -/

variable [DecidableEq Id] [Unicode]

/-- The diagnostics of the statement as the only one of a file, at the places
where it stands. -/
def aloneDiagnostics (w : Walker Id) (statement : Node) : List Diagnostic :=
  ((w.alone statement).analyzeNow statement.alone).diagnostics.map
    (Diagnostic.move (· + statement.start))

/-- The diagnostics that the walk of a region leaves. -/
def regionDiagnostics (w : Walker Id) (region : Node) (outer : List Level) :
    List Diagnostic :=
  (w.walkRegion region outer).events.filterMap w.diagnose

theorem walkRegion_leaf (w : Walker Id) {region : Node} {outer : List Level}
    (hkind : region.kind = .statement) (h : region.children = []) :
    (w.walkRegion region outer).events = [] := by
  have hsides : ¬region.hasSides := by
    rw [Node.hasSides, hkind, Node.direct, h]
    simp
  rw [walkRegion_eq, walkRegionWith_parts w (by rw [hkind]; simp) hsides]
  simp [walkParts, cteBodyWalks, Node.direct, h]

/-- Alone a statement has the diagnostics of its walk. -/
theorem aloneDiagnostics_perm (w : Walker Id) {statement : Node}
    (hkind : statement.kind = .statement)
    (hordered : SpanTree.Ordered statement)
    (hvalid : (Node.range statement).Valid w.text) :
    (w.aloneDiagnostics statement).Perm (w.regionDiagnostics statement []) := by
  have hback : (statement.move (· - statement.start)).move
      (· + statement.start) = statement := by
    apply SpanTree.move_move_of_eq
    intro m hm
    obtain ⟨hstart, -⟩ := hordered.within hm
    have hle := (hordered m hm).start_le_stop
    exact ⟨Nat.sub_add_cancel hstart,
      Nat.sub_add_cancel (Nat.le_trans hstart hle)⟩
  have hevents : (w.alone statement).events statement.alone =
      ((w.alone statement).walkRegion (statement.move (· - statement.start))
        []).events := by
    rw [events, Node.regions, Node.alone, SpanTree.children]
    by_cases hleaf : statement.children = []
    · rw [walkRegion_leaf _ (by rwa [SpanTree.kind_move])
        (by rw [SpanTree.children_move, hleaf]; rfl)]
      simp [SpanTree.kind_move, hkind, SpanTree.children_move, hleaf]
    · simp [SpanTree.kind_move, hkind, SpanTree.children_move, hleaf, rootEvents]
  have hmoved := diagnose_walkRegion_move (reads_alone hordered hvalid) []
  rw [hback, List.map_nil] at hmoved
  rw [aloneDiagnostics, analyzeNow, regionDiagnostics, hmoved, hevents]
  exact (Diagnostic.sorted_perm _).map _

/-! ## Statements that share a region -/

/-- The level of a statement without CTEs by itself. -/
def ownLevel (w : Walker Id) (statement : Node) : Level :=
  w.groupLevel ⟨statement.children, statement.children⟩ [] []

/-- What a statement leaves when its references see the level. -/
def statementEvents (w : Walker Id) (level : Level) (statement : Node) :
    List Event :=
  (w.ownLevel statement).sources.map .bound
    ++ (Node.subqueries statement).flatMap (fun sub =>
        (w.walkRegion sub [level]).events)
    ++ SpanTree.visitStack (resolveStep [level]) statement

/-- What a region leaves that has no CTEs and no set operations. -/
theorem events_of_plain {w : Walker Id} {region : Node}
    (herror : region.kind ≠ .error) (hsides : ¬region.hasSides)
    (hcte : region.direct .cte = []) :
    (w.walkRegion region []).events =
      (w.ownLevel region).sources.map .bound
        ++ (region.children.flatMap fun part =>
          (partWalks w.walkRegion [w.ownLevel region] part).flatMap Walk.events)
        ++ region.children.flatMap (resolvePart [w.ownLevel region]) := by
  have hbodies : (cteBodyWalks w.walkRegion (some region) []
      []).flatMap Walk.events = [] := by
    rw [cteBodyWalks, Option.map_some, Option.getD_some, hcte]
    rfl
  rw [walkRegion_eq, walkRegionWith_parts w herror hsides, hcte, List.map_nil,
    events_walkParts w _ ⟨region.children, region.children⟩, hbodies,
    List.nil_append]
  rfl

section Statement

variable {w : Walker Id} {statement : Node}
  (hkind : statement.kind = .statement)

include hkind

omit [DecidableEq Id] [Unicode] in
theorem visitStack_statement_perm
    (hset : statement.direct .setOperation = []) (levels : List Level) :
    (statement.children.flatMap (resolvePart levels)).Perm
      (SpanTree.visitStack (resolveStep levels) statement) := by
  rw [SpanTree.visitStack_eq, resolveStep]
  simp only [hkind, List.nil_append, if_true]
  refine List.Perm.trans ?_ ((List.reverse_perm _).symm.flatMap_right _)
  apply List.Perm.flatMap_left
  intro child hchild
  rw [resolvePart, if_neg (Node.direct_eq_nil_iff.1 hset child hchild)]

omit [DecidableEq Id] [Unicode] in
theorem subqueries_statement :
    statement.subqueries = statement.children.flatMap Node.subqueries := by
  rw [Node.subqueries_eq, if_neg (by simp [hkind]), if_neg (by simp [hkind])]

theorem walkRegion_statement_perm (hcte : statement.direct .cte = [])
    (hset : statement.direct .setOperation = []) :
    (w.walkRegion statement []).events.Perm
      (w.statementEvents (w.ownLevel statement) statement) := by
  have hsides : ¬statement.hasSides := by
    rw [Node.hasSides, hkind, hset]
    simp
  rw [events_of_plain (by simp [hkind]) hsides hcte]
  refine List.Perm.append (List.Perm.append_left _ ?_)
    (visitStack_statement_perm hkind hset _)
  rw [subqueries_statement hkind, List.flatMap_assoc]
  apply List.Perm.flatMap_left
  intro child hchild
  have hchildKind := Node.direct_eq_nil_iff.1 hset child hchild
  rw [partWalks, if_neg hchildKind, List.flatMap_map]

end Statement

/-- Levels with the same CTEs are alike to a statement without references. -/
theorem statementEvents_congr (w : Walker Id) {statement : Node}
    (hfree : statement.FieldFree) {level level' : Level}
    (hctes : level.ctes = level'.ctes) :
    w.statementEvents level statement = w.statementEvents level' statement := by
  have hctes' : [level].map Level.ctes = [level'].map Level.ctes := by
    rw [List.map_singleton, List.map_singleton, hctes]
  rw [statementEvents, statementEvents]
  congr 1
  · congr 1
    apply List.flatMap_congr
    intro sub hsub
    refine eq_of_rebased (rebased_walkRegion hctes' sub []) ?_
    intro field levels hmem
    obtain ⟨hfield, hkind⟩ := field_of_resolve hmem
    exact hfree field (SpanTree.mem_subtrees_trans
      (Node.mem_subtrees_of_mem_subqueries hsub) hfield) hkind
  · refine eq_of_rebased (rebased_visitStack [] statement) ?_
    intro field levels hmem
    obtain ⟨_, hfield, rfl⟩ := SpanTree.exists_mem_visitStack
      (g := Node.fieldStep) (R := fun node => node = field)
      (fun _ hmem => ⟨field, resolve_mem_fieldStep hmem, rfl⟩)
      (fun node hgo => (resolveStep_snd_eq _ node).symm.trans hgo) hmem
    exact hfree _ (Node.mem_subtrees_of_mem_fields hfield)
      (Node.kind_of_mem_fields hfield)

/-! ## Transactions and blocks -/

/-- A part without sources adds none to a level. -/
theorem visitIn_of_sourceFree (w : Walker Id) {ctes : List Binding}
    {outer : List Frame} {siblings : List Node} {part : Node}
    (h : SpanTree.visitIn Node.sourceStep siblings part = []) :
    SpanTree.visitIn (w.phaseA ctes outer) siblings part = [] := by
  have hmeet : ∀ source siblings node,
      source ∈ (w.phaseA ctes outer siblings node).1 →
        ∃ n ∈ (Node.sourceStep siblings node).1, n = node := by
    intro source siblings node hsource
    rw [phaseA] at hsource
    rw [Node.sourceStep]
    split at hsource
    · cases hsource
    · next hbinds =>
        rw [if_neg hbinds]
        cases hkind : node.kind
        case fromClause =>
          simp only [hkind] at hsource
          split at hsource
          · next hdelete => exact ⟨node, by simp [hdelete], rfl⟩
          · cases hsource
        all_goals simp_all
  have hgo : ∀ siblings node, (w.phaseA ctes outer siblings node).2 =
      (Node.sourceStep siblings node).2 := by
    intro siblings node
    rw [phaseA, Node.sourceStep]
    split
    · rfl
    · cases SpanTree.kind node <;> rfl
  apply List.eq_nil_iff_forall_not_mem.2
  intro source hsource
  obtain ⟨node, hnode, -⟩ := SpanTree.exists_mem_visitIn
    (g := Node.sourceStep) (R := fun _ => True)
    (fun siblings node hmem =>
      (hmeet source siblings node hmem).imp fun _ hn => ⟨hn.1, trivial⟩)
    (fun siblings node h => (hgo siblings node).symm.trans h) hsource
  rw [h] at hnode
  cases hnode

/-- A statement without sources of its own binds nothing. -/
theorem ownLevel_of_sourceFree (w : Walker Id) {statement : Node}
    (h : statement.SourceFree) : (w.ownLevel statement).sources = [] := by
  rw [Node.SourceFree, List.flatMap_eq_nil_iff] at h
  exact List.flatMap_eq_nil_iff.2 fun part hpart =>
    visitIn_of_sourceFree w (h part hpart)

section Holder

variable {w : Walker Id} {holder : Node}
  (hholds : holder.kind.holdsStatements = true)
  (hparts : ∀ part ∈ SpanTree.children holder, Node.IsPart part)

include hparts

theorem visitIn_part {part : Node} (hpart : part ∈ SpanTree.children holder)
    (siblings : List Node) :
    SpanTree.visitIn (w.phaseA [] []) siblings part =
      if part.kind = .statement then (w.ownLevel part).sources else [] := by
  rw [SpanTree.visitIn_eq]
  rcases hparts part hpart with hkind | ⟨htrivia, hleaf⟩
  · rw [if_pos hkind, phaseA, hkind, if_neg (by decide)]
    rfl
  · have hphase : w.phaseA [] [] siblings part = ([], false) ∨
        w.phaseA [] [] siblings part = ([], true) := by
      rw [phaseA]
      split
      · exact .inl rfl
      · cases hkind : part.kind <;> simp_all [NodeKind.isTrivia,
          NodeKind.isKeyword]
    rw [if_neg (NodeKind.ne_of_flag htrivia (by decide))]
    rcases hphase with hphase | hphase <;> simp [hphase, hleaf]

theorem partWalks_part {part : Node} (hpart : part ∈ SpanTree.children holder)
    (levels : List Level) :
    (partWalks w.walkRegion levels part).flatMap Walk.events =
      if part.kind = .statement then
        part.subqueries.flatMap fun sub => (w.walkRegion sub levels).events
      else [] := by
  rcases hparts part hpart with hkind | ⟨htrivia, hleaf⟩
  · simp [partWalks, hkind, List.flatMap_map]
  · have hstatement : part.kind ≠ .statement :=
      NodeKind.ne_of_flag htrivia (by decide)
    have hset : part.kind ≠ .setOperation :=
      NodeKind.ne_of_flag htrivia (by decide)
    have hsub : part.kind ≠ .subquery :=
      NodeKind.ne_of_flag htrivia (by decide)
    simp [partWalks, hstatement, hset, hsub, Node.subqueries_eq, hleaf]

omit [DecidableEq Id] [Unicode] in
theorem resolvePart_part {part : Node} (hpart : part ∈ SpanTree.children holder)
    (levels : List Level) :
    resolvePart levels part =
      if part.kind = .statement then
        SpanTree.visitStack (resolveStep levels) part
      else [] := by
  rcases hparts part hpart with hkind | ⟨htrivia, hleaf⟩
  · simp [resolvePart, hkind]
  · have hstatement : part.kind ≠ .statement :=
      NodeKind.ne_of_flag htrivia (by decide)
    have hset : part.kind ≠ .setOperation :=
      NodeKind.ne_of_flag htrivia (by decide)
    have hstep : (resolveStep levels part).1 = [] := by
      rw [resolveStep]
      cases hkind : part.kind <;> simp_all [NodeKind.isTrivia,
        NodeKind.isKeyword]
    simp [resolvePart, hstatement, hset, SpanTree.visitStack_eq, hleaf, hstep]

/-- The level of a transaction or block has the sources of all its
statements. -/
theorem holderLevel_sources :
    (w.groupLevel ⟨holder.children, holder.children⟩ [] []).sources =
      (holder.direct .statement).flatMap fun statement =>
        (w.ownLevel statement).sources := by
  rw [Node.direct, flatMap_filter_eq]
  apply List.flatMap_congr
  intro part hpart
  rw [List.map_nil, visitIn_part hparts hpart]
  simp

variable (hplain : ∀ statement ∈ holder.direct .statement,
  Node.direct statement .cte = [] ∧ Node.direct statement .setOperation = [])

include hholds

/-- What a transaction or block leaves: what its statements leave under one
level. -/
theorem walkRegion_holder_perm :
    (w.walkRegion holder []).events.Perm
      ((holder.direct .statement).flatMap (w.statementEvents
        (w.groupLevel ⟨holder.children, holder.children⟩ [] []))) := by
  have hnone : ∀ kind, kind ≠ .statement → kind.isTrivia = false →
      holder.direct kind = [] := by
    intro kind hkind htrivia
    refine Node.direct_eq_nil_iff.2 fun part hpart => ?_
    rcases hparts part hpart with hstatement | ⟨hpartTrivia, -⟩
    · rw [hstatement]
      exact hkind.symm
    · exact NodeKind.ne_of_flag hpartTrivia htrivia
  have hsides : ¬holder.hasSides := by
    rw [Node.hasSides, hnone .setOperation (by decide) (by decide)]
    rintro (hkind | hne)
    · exact NodeKind.ne_of_flag hholds (by decide) hkind
    · exact hne rfl
  rw [events_of_plain (NodeKind.ne_of_flag hholds (by decide)) hsides
    (hnone .cte (by decide) (by decide)), ownLevel, holderLevel_sources hparts,
    List.map_flatMap]
  generalize w.groupLevel ⟨holder.children, holder.children⟩ [] [] = level
  -- what the other parts leave is nothing
  have hwalks : holder.children.flatMap (fun part =>
        (partWalks w.walkRegion [level] part).flatMap Walk.events) =
      (holder.direct .statement).flatMap fun statement =>
        (Node.subqueries statement).flatMap fun sub =>
          (w.walkRegion sub [level]).events := by
    rw [Node.direct, flatMap_filter_eq]
    apply List.flatMap_congr
    intro part hpart
    simpa using partWalks_part hparts hpart [level]
  have hresolve : holder.children.flatMap (resolvePart [level]) =
      (holder.direct .statement).flatMap
        (SpanTree.visitStack (resolveStep [level])) := by
    rw [Node.direct, flatMap_filter_eq]
    apply List.flatMap_congr
    intro part hpart
    simpa using resolvePart_part hparts hpart [level]
  rw [hwalks, hresolve]
  exact ((List.flatMap_append_perm _ _ _).append_right _).trans
    (List.flatMap_append_perm _ _ _)

include hplain

/-- Statements that are apart from each other leave in a transaction or block
what they leave at the top of a file. -/
theorem regionDiagnostics_holder_perm
    (hapart : (holder.direct .statement).Pairwise Node.Apart) :
    (w.regionDiagnostics holder []).Perm
      ((holder.direct .statement).flatMap (w.regionDiagnostics · [])) := by
  have hevents : (holder.direct .statement).flatMap (w.statementEvents
        (w.groupLevel ⟨holder.children, holder.children⟩ [] [])) =
      (holder.direct .statement).flatMap fun statement =>
        w.statementEvents (w.ownLevel statement) statement := by
    apply List.flatMap_congr
    intro statement hstatement
    by_cases hfree : statement.FieldFree
    · exact statementEvents_congr w hfree rfl
    · -- the others bind nothing, so that the level is its own
      have hsources := holderLevel_sources (w := w) hparts
      rw [flatMap_eq_of_pairwise (P := Node.FieldFree)
        (hapart.imp fun h => ⟨h.1.imp_left (ownLevel_of_sourceFree w),
          h.2.imp_left (ownLevel_of_sourceFree w)⟩) hstatement hfree]
        at hsources
      have hlevel : w.groupLevel ⟨holder.children, holder.children⟩ [] [] =
          w.ownLevel statement := by
        rw [ownLevel, groupLevel] at hsources ⊢
        rw [groupLevel] at hsources ⊢
        exact congrArg (Level.mk []) hsources
      rw [hlevel]
  rw [regionDiagnostics]
  refine ((walkRegion_holder_perm hholds hparts).filterMap _).trans ?_
  rw [hevents, List.filterMap_flatMap]
  apply List.Perm.flatMap_left
  intro statement hstatement
  obtain ⟨hcte, hset⟩ := hplain statement hstatement
  exact ((walkRegion_statement_perm (Node.mem_direct.1 hstatement).2 hcte
    hset).filterMap _).symm

end Holder

/-! ## Files -/

/-- The diagnostics of a file are those of its statements, each alone. -/
def Isolated (w : Walker Id) (root : Node) : Prop :=
  (w.analyzeNow root).diagnostics.Perm
    (root.fileStatements.flatMap w.aloneDiagnostics)

omit [Unicode] in
theorem mem_fileStatements {root statement : Node}
    (h : statement ∈ root.fileStatements) :
    statement ∈ root.subtrees ∧ SpanTree.kind statement = .statement := by
  obtain ⟨child, hchild, h⟩ := List.mem_flatMap.1 h
  have hmem : child ∈ root.subtrees :=
    SpanTree.mem_subtrees_of_child hchild (SpanTree.self_mem_subtrees child)
  split at h
  · rename_i hkind
    rw [List.mem_singleton.1 h]
    exact ⟨hmem, hkind⟩
  · split at h
    · exact ⟨SpanTree.mem_subtrees_trans hmem (Node.mem_subtrees_of_mem_direct h),
        (Node.mem_direct.1 h).2⟩
    · cases h

/-- The diagnostics of the events of a file, child by child. -/
theorem filterMap_events (w : Walker Id) (root : Node) :
    (w.events root).filterMap w.diagnose =
      root.children.flatMap fun child =>
        if SpanTree.children child = [] then []
        else if SpanTree.kind child = .semicolon ∨
          SpanTree.kind child = .comma then []
        else (w.rootEvents child).filterMap w.diagnose := by
  rw [events, Node.regions, flatMap_filter_eq, flatMap_filter_eq,
    List.filterMap_flatMap]
  apply List.flatMap_congr
  intro child _
  by_cases hleaf : SpanTree.children child = []
  · simp [hleaf]
  · by_cases hskip : SpanTree.kind child = .semicolon ∨
      SpanTree.kind child = .comma <;> simp [hleaf, hskip]

/-- A complete file whose transactions and blocks share nothing has the
diagnostics of the walks of its statements. -/
theorem filterMap_events_perm (w : Walker Id) {root : Node}
    (hcomplete : root.CompleteFile) (h : root.Unshared) :
    ((w.events root).filterMap w.diagnose).Perm
      (root.fileStatements.flatMap (w.regionDiagnostics · [])) := by
  rw [filterMap_events, Node.fileStatements, List.flatMap_assoc]
  apply List.Perm.flatMap_left
  intro child hchild
  rcases hcomplete child hchild with (hkind | ⟨htrivia, hleaf⟩) |
    ⟨hholds, hparts⟩
  · have herror : SpanTree.kind child ≠ .error := by simp [hkind]
    rw [rootEvents, if_neg herror, if_pos hkind, List.flatMap_singleton,
      regionDiagnostics]
    split
    · next hleaf => simp [walkRegion_leaf w hkind hleaf]
    · simp [hkind]
  · have hne : SpanTree.kind child ≠ .statement :=
      NodeKind.ne_of_flag htrivia (by decide)
    have hholds : (SpanTree.kind child).holdsStatements = false := by
      cases hkind : SpanTree.kind child <;> simp_all [NodeKind.isTrivia,
        NodeKind.isKeyword, NodeKind.holdsStatements]
    simp [hleaf, hne, hholds]
  · have hne : ∀ kind : NodeKind, kind.holdsStatements = false →
        SpanTree.kind child ≠ kind := fun _ => NodeKind.ne_of_flag hholds
    obtain ⟨hplain, hapart⟩ := h child hchild hholds
    rw [rootEvents, if_neg (hne .error rfl),
      if_neg (hne .statement rfl), if_pos hholds]
    split
    · next hleaf => simp [Node.direct, hleaf]
    · rw [if_neg (by simp [hne .semicolon rfl, hne .comma rfl])]
      exact regionDiagnostics_holder_perm hholds hparts hplain hapart

/-- A complete file whose transactions and blocks share nothing has the
diagnostics of its statements, each alone. -/
theorem isolated_of_unshared (w : Walker Id) (root : Node)
    (hcomplete : root.CompleteFile) (hordered : SpanTree.Ordered root)
    (hvalid : ∀ statement ∈ root.fileStatements,
      (Node.range statement).Valid w.text)
    (h : root.Unshared) : w.Isolated root := by
  refine ((Diagnostic.sorted_perm _).trans
    (filterMap_events_perm w hcomplete h)).trans ?_
  apply List.Perm.flatMap_left
  intro statement hstatement
  obtain ⟨hmem, hkind⟩ := mem_fileStatements hstatement
  exact (aloneDiagnostics_perm w hkind (hordered.of_mem_subtrees hmem)
    (hvalid statement hstatement)).symm

end Walker

/-! ## Statements in a transaction -/

instance (rope : Rope) (range : ByteRange) : Decidable (range.Valid rope) :=
  decidable_of_iff _ (Rope.charRange_isOk_iff rope range)

section Sample

local instance asciiStatements : Unicode := Unicode.ascii

/-- `select id from users` at an offset. -/
def selectId (o : ℕ) : Node :=
  .node .statement o (o + 20)
    [.node .select o (o + 9)
      [.leaf (.keyword "select") o (o + 6),
        .node .selectExpression (o + 7) (o + 9)
          [.node .term (o + 7) (o + 9)
            [.node .field (o + 7) (o + 9)
              [.leaf .identifier (o + 7) (o + 9)]]]],
      .node .fromClause (o + 10) (o + 20)
        [.leaf (.keyword "from") (o + 10) (o + 14),
          .node .relation (o + 15) (o + 20)
            [.node .objectReference (o + 15) (o + 20)
              [.leaf .identifier (o + 15) (o + 20)]]]]

/-- `begin; select id from users; select id from users; commit;` -/
def twoSelects : Node :=
  .node (.other "program") 0 58
    [.node .transaction 0 57
      [.leaf (.keyword "begin") 0 5, .leaf .semicolon 5 6, selectId 7,
        .leaf .semicolon 27 28, selectId 29, .leaf .semicolon 49 50,
        .leaf (.keyword "commit") 51 57],
      .leaf .semicolon 57 58]

def twoSelectsText : Text :=
  "begin; select id from users; select id from users; commit;".toList

/-- Two statements of a transaction make each other's columns ambiguous. -/
theorem twoSelects_not_isolated :
    twoSelects.CompleteFile ∧ SpanTree.Ordered twoSelects ∧
      (∀ statement ∈ twoSelects.fileStatements,
        (Node.range statement).Valid twoSelectsText) ∧
      ¬Walker.Isolated ⟨twoSelectsText, usersCatalog⟩ twoSelects := by
  refine ⟨by decide +kernel, by decide +kernel, by decide +kernel, ?_⟩
  rw [Walker.Isolated]
  decide +kernel

/-- `begin; select id from users; select 1; commit;` -/
def selectOne : Node :=
  .node (.other "program") 0 46
    [.node .transaction 0 45
      [.leaf (.keyword "begin") 0 5, .leaf .semicolon 5 6, selectId 7,
        .leaf .semicolon 27 28,
        .node .statement 29 37
          [.node .select 29 37
            [.leaf (.keyword "select") 29 35,
              .node .selectExpression 36 37
                [.node .term 36 37 [.leaf .literal 36 37]]]],
        .leaf .semicolon 37 38, .leaf (.keyword "commit") 39 45],
      .leaf .semicolon 45 46]

def selectOneText : Text :=
  "begin; select id from users; select 1; commit;".toList

theorem selectOne_isolated :
    selectOne.fileStatements.length = 2 ∧
      Walker.Isolated ⟨selectOneText, usersCatalog⟩ selectOne :=
  ⟨by decide, Walker.isolated_of_unshared ⟨selectOneText, usersCatalog⟩
    selectOne (by decide +kernel) (by decide +kernel) (by decide +kernel)
    (by decide +kernel)⟩

end Sample

end Tempr.Intel
