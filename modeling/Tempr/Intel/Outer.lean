import Mathlib.Data.List.Forall2
import Tempr.Intel.ScopeRanges

/-!
# Walks under other levels

Of the levels around it a walk itself reads the CTEs alone, by which relations
resolve; the levels as a whole are handed on to the column references. So walks
of one region under levels with the same CTEs leave the same events, but for the
levels at which references are resolved.
-/

namespace Tempr.Intel

open Tempr.Support
open Tempr.Editor (ByteRange)

/-- Two events that differ in the outer levels of a reference: `base` on the one
side, `base'` on the other. -/
inductive Event.Rebased (base base' : List Level) : Event → Event → Prop
  | syntaxError (node : Node) :
      Rebased base base' (.syntaxError node) (.syntaxError node)
  | bound (source : Source) : Rebased base base' (.bound source) (.bound source)
  | resolve (field : Node) (inner : List Level) :
      Rebased base base' (.resolve field (inner ++ base))
        (.resolve field (inner ++ base'))

variable {base base' : List Level}

/-- Without column references the events are the same. -/
theorem eq_of_rebased {es es' : List Event}
    (h : List.Forall₂ (Event.Rebased base base') es es')
    (hnone : ∀ field levels, Event.resolve field levels ∉ es) : es = es' := by
  induction h with
  | nil => rfl
  | cons hhead _ ih =>
      have htail := ih fun field levels hmem =>
        hnone field levels (List.mem_cons_of_mem _ hmem)
      cases hhead with
      | syntaxError node => rw [htail]
      | bound source => rw [htail]
      | resolve field inner => exact absurd List.mem_cons_self (hnone field _)

theorem forall₂_flatMap {α β γ : Type*} {R : β → γ → Prop} {f : α → List β}
    {g : α → List γ} {l : List α} (h : ∀ a ∈ l, List.Forall₂ R (f a) (g a)) :
    List.Forall₂ R (l.flatMap f) (l.flatMap g) := by
  induction l with
  | nil => exact .nil
  | cons a l ih =>
      rw [List.forall_mem_cons] at h
      exact List.rel_append h.1 (ih h.2)

/-- What is related to a member of the other list. -/
theorem exists_of_forall₂ {α β : Type*} {R : α → β → Prop} {l : List α}
    {l' : List β} (h : List.Forall₂ R l l') {a : α} (ha : a ∈ l) :
    ∃ b ∈ l', R a b := by
  induction h with
  | nil => cases ha
  | cons hhead _ ih =>
      rcases List.mem_cons.1 ha with rfl | ha
      · exact ⟨_, List.mem_cons_self, hhead⟩
      · obtain ⟨b, hb, hab⟩ := ih ha
        exact ⟨b, List.mem_cons_of_mem _ hb, hab⟩

theorem rebased_resolveStep (inner : List Level) (node : Node) :
    List.Forall₂ (Event.Rebased base base')
        (resolveStep (inner ++ base) node).1
        (resolveStep (inner ++ base') node).1 ∧
      (resolveStep (inner ++ base) node).2 =
        (resolveStep (inner ++ base') node).2 := by
  rw [resolveStep, resolveStep]
  cases node.kind
  case field => exact ⟨.cons (.resolve node inner) .nil, rfl⟩
  case error => exact ⟨.cons (.syntaxError node) .nil, rfl⟩
  all_goals exact ⟨.nil, rfl⟩

theorem rebased_visitStack (inner : List Level) (node : Node) :
    List.Forall₂ (Event.Rebased base base')
      (SpanTree.visitStack (resolveStep (inner ++ base)) node)
      (SpanTree.visitStack (resolveStep (inner ++ base')) node) := by
  induction node using SpanTree.induction_children with
  | h node ih =>
      obtain ⟨hself, hgo⟩ := @rebased_resolveStep base base' inner node
      rw [SpanTree.visitStack_eq, SpanTree.visitStack_eq, hgo]
      refine List.rel_append hself ?_
      split
      · apply forall₂_flatMap
        intro child hchild
        exact ih child (List.mem_reverse.1 hchild)
      · exact .nil

theorem rebased_resolvePart (inner : List Level) (part : Node) :
    List.Forall₂ (Event.Rebased base base') (resolvePart (inner ++ base) part)
      (resolvePart (inner ++ base') part) := by
  rw [resolvePart, resolvePart]
  split
  · exact .nil
  · exact rebased_visitStack inner part

namespace Walker

variable {Id : Type} [DecidableEq Id] [Unicode] {w : Walker Id}

/-! ## Sources -/

section Sources

variable {ctes : List Binding} {outer outer' : List Frame}
  (h : outer.map Frame.ctes = outer'.map Frame.ctes)

include h

omit [DecidableEq Id] in
theorem resolveRelation_congr (catalog : CatalogCache Id) (names : List Text) :
    resolveRelation catalog names ctes outer =
      resolveRelation catalog names ctes outer' := by
  simp only [resolveRelation, h]

theorem phaseA_congr : w.phaseA ctes outer = w.phaseA ctes outer' := by
  have hresolve : ∀ names, resolveRelation w.catalog names ctes outer =
      resolveRelation w.catalog names ctes outer' :=
    resolveRelation_congr h w.catalog
  funext siblings node
  simp only [phaseA, relationItem, dmlTarget, dmlFrom, bindTarget, hresolve]

end Sources

theorem groupLevel_congr {group : Node.Group} {ctes : List Binding}
    {outer outer' : List Level}
    (h : outer.map Level.ctes = outer'.map Level.ctes) :
    w.groupLevel group ctes outer = w.groupLevel group ctes outer' := by
  have hframes : (outer.map Level.frame).map Frame.ctes =
      (outer'.map Level.frame).map Frame.ctes := by
    rw [List.map_map, List.map_map]
    exact h
  rw [groupLevel, groupLevel, phaseA_congr hframes]

/-! ## Walks -/

section Walks

variable (hctes : base.map Level.ctes = base'.map Level.ctes)

omit [DecidableEq Id] [Unicode] in
theorem rebased_partWalks {walk : Node → List Level → Walk} {part : Node}
    (h : ∀ sub ∈ part.subtrees, ∀ inner,
      List.Forall₂ (Event.Rebased base base') (walk sub (inner ++ base)).events
        (walk sub (inner ++ base')).events) (inner : List Level) :
    List.Forall₂ (Event.Rebased base base')
      ((partWalks walk (inner ++ base) part).flatMap Walk.events)
      ((partWalks walk (inner ++ base') part).flatMap Walk.events) := by
  rw [partWalks, partWalks]
  split
  · simpa using h part (SpanTree.self_mem_subtrees part) inner
  · rw [List.flatMap_map, List.flatMap_map]
    apply forall₂_flatMap
    intro sub hsub
    exact h sub (Node.mem_subtrees_of_mem_subqueries hsub) inner

omit [DecidableEq Id] [Unicode] in
theorem rebased_cteBodyWalks {walk : Node → List Level → Walk} {region : Node}
    (h : ∀ sub ∈ region.descendants, ∀ inner,
      List.Forall₂ (Event.Rebased base base') (walk sub (inner ++ base)).events
        (walk sub (inner ++ base')).events) (ctes : List Binding)
    (inner : List Level) :
    List.Forall₂ (Event.Rebased base base')
      ((cteBodyWalks walk (some region) ctes (inner ++ base)).flatMap
        Walk.events)
      ((cteBodyWalks walk (some region) ctes (inner ++ base')).flatMap
        Walk.events) := by
  rw [cteBodyWalks, cteBodyWalks, Option.map_some, Option.getD_some,
    List.filterMap_eq_flatMap_toList, List.filterMap_eq_flatMap_toList,
    List.flatMap_assoc, List.flatMap_assoc]
  apply forall₂_flatMap
  intro p hp
  have hcte : p.1 ∈ region.direct .cte := List.fst_mem_of_mem_zipIdx hp
  cases hbody : Node.cteBody p.1 with
  | none => exact .nil
  | some body =>
      simpa using h body (Node.mem_descendants_of_cteBody hcte hbody)
        (⟨ctes.take p.2, []⟩ :: inner)

include hctes

theorem rebased_walkParts {walk : Node → List Level → Walk}
    (group : Node.Group) {range range' : ByteRange} {ctes : List Binding}
    {owner : Option Node} (inner : List Level)
    (howner : List.Forall₂ (Event.Rebased base base')
      ((cteBodyWalks walk owner ctes (inner ++ base)).flatMap Walk.events)
      ((cteBodyWalks walk owner ctes (inner ++ base')).flatMap Walk.events))
    (h : ∀ part ∈ group.parts, ∀ sub ∈ part.subtrees, ∀ inner,
      List.Forall₂ (Event.Rebased base base') (walk sub (inner ++ base)).events
        (walk sub (inner ++ base')).events) :
    List.Forall₂ (Event.Rebased base base')
      (w.walkParts walk group.siblings group.parts range ctes owner
        (inner ++ base)).events
      (w.walkParts walk group.siblings group.parts range' ctes owner
        (inner ++ base')).events := by
  have hlevel : w.groupLevel group ctes (inner ++ base) =
      w.groupLevel group ctes (inner ++ base') := by
    apply groupLevel_congr
    rw [List.map_append, List.map_append, hctes]
  rw [events_walkParts, events_walkParts, ← hlevel]
  generalize w.groupLevel group ctes (inner ++ base) = level
  refine List.rel_append (List.rel_append ?_ (List.rel_append howner ?_)) ?_
  · rw [List.forall₂_map_left_iff, List.forall₂_map_right_iff,
      List.forall₂_same]
    exact fun source _ => .bound source
  · apply forall₂_flatMap
    intro part hpart
    exact rebased_partWalks (h part hpart) (level :: inner)
  · apply forall₂_flatMap
    intro part _
    exact rebased_resolvePart (level :: inner) part

/-- The walks of a region under levels with the same CTEs. -/
theorem rebased_walkRegion (region : Node) (inner : List Level) :
    List.Forall₂ (Event.Rebased base base')
      (w.walkRegion region (inner ++ base)).events
      (w.walkRegion region (inner ++ base')).events := by
  induction region using SpanTree.induction_descendants generalizing inner with
  | h region ih =>
      rw [walkRegion_eq, walkRegion_eq]
      by_cases herror : region.kind = .error
      · rw [walkRegionWith_error w herror, walkRegionWith_error w herror]
        exact .cons (.syntaxError region) .nil
      by_cases hset : Node.hasSides region
      · rw [walkRegionWith_sides w herror hset,
          walkRegionWith_sides w herror hset]
        simp only [walkSetOperation, List.flatMap_append]
        refine List.rel_append (rebased_cteBodyWalks ih _ _) ?_
        rw [List.flatMap_assoc, List.flatMap_assoc]
        apply forall₂_flatMap
        intro op hop
        rw [List.flatMap_map, List.flatMap_map]
        apply forall₂_flatMap
        intro side hside
        refine rebased_walkParts hctes ⟨op.children, side⟩
          (⟨_, []⟩ :: inner) ?_ ?_
        · rw [cteBodyWalks_none, cteBodyWalks_none]
          exact .nil
        · intro part hpart sub hsub
          exact ih sub (SpanTree.mem_descendants_of_mem_subtrees
            (Node.mem_descendants_of_mem_operations hop
              (mem_children_of_mem_side hside hpart)) hsub)
      · rw [walkRegionWith_parts w herror hset,
          walkRegionWith_parts w herror hset]
        refine rebased_walkParts hctes ⟨region.children, region.children⟩ inner
          (rebased_cteBodyWalks ih _ _) ?_
        intro part hpart sub hsub
        exact ih sub (SpanTree.mem_descendants_iff.2 ⟨part, hpart, hsub⟩)

end Walks

end Walker

end Tempr.Intel
