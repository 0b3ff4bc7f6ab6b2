import Tempr.Intel.SyntaxErrors

/-!
# Diagnostics inside broken syntax

A relation or column is reported at the place where its name is read, and the
names of a file are read at places that its tree alone determines. So nothing is
reported inside an error unless a name is read there: the walk stops at errors,
but the identifiers of a name are looked for below errors too.
-/

namespace Tempr.Intel

open Tempr.Support
open Tempr.Editor (ByteRange)

/-! ## The places of names -/

namespace Node

/-- Where a relation or target could be reported: at the span of its name. -/
def sourcePlaces (name : Node) : List ByteRange :=
  match name.identifiers.head?, name.identifiers.getLast? with
  | some first, some last => [⟨first.start, last.stop⟩]
  | _, _ => []

/-- Where a column reference could be reported. -/
def fieldPlaces (field : Node) : List ByteRange :=
  referencePlaces (field.identifiers.reverse.map Node.range)

/-- The names of sources at a node, and whether there may be more below. -/
def nameStep (siblings : List Node) (node : Node) : List Node × Bool :=
  if node.kind.bindsNothing then ([], false)
  else
    match node.kind with
    | .relation =>
        (if (node.direct .subquery).isEmpty then
          (node.direct .objectReference).getLast?.toList
        else [], false)
    | .lateralJoin => ([], false)
    | .lateralCrossJoin => ([], false)
    | .fromClause =>
        (if isDeleteTargetClause siblings then
          (node.direct .objectReference).head?.toList
        else [], true)
    | .insert => ((node.direct .objectReference).head?.toList, true)
    | _ => ([], true)

/-- The column references at a node, and whether there may be more below. -/
def fieldStep (node : Node) : List Node × Bool :=
  match node.kind with
  | .field => ([node], true)
  | .subquery => ([], false)
  | .cte => ([], false)
  | .error => ([], false)
  | _ => ([], true)

/-- The places at which a group of clauses could report a name. -/
def Group.places (group : Group) : List ByteRange :=
  (group.parts.flatMap (SpanTree.visitIn nameStep group.siblings)).flatMap
      sourcePlaces
    ++ (group.parts.flatMap fun part =>
        if part.kind = .setOperation then []
        else SpanTree.visitStack fieldStep part).flatMap fieldPlaces

/-- The places at which a name in the file could be reported. -/
def places (root : Node) : List ByteRange :=
  (Walker.statements root).flatMap fun statement =>
    (regionsWithin statement).flatMap fun region =>
      (groups region).flatMap Group.places

/-- Does the place lie inside an error of the file? -/
def InsideError (root : Node) (place : ByteRange) : Prop :=
  ∃ node ∈ root.subtrees, node.kind = .error ∧ node.start ≤ place.start ∧
    place.stop ≤ node.stop

instance (root : Node) (place : ByteRange) :
    Decidable (root.InsideError place) :=
  inferInstanceAs (Decidable (∃ node ∈ _, _))

end Node

namespace Walker

variable {Id : Type} [DecidableEq Id] [Unicode]

/-! ## Names that do not resolve -/

omit [DecidableEq Id] [Unicode] in
theorem objectSpan_mem_sourcePlaces {w : Walker Id} {name : Node}
    (h : w.identifierParts name ≠ []) :
    objectSpan (w.identifierParts name) ∈ name.sourcePlaces := by
  rw [identifierParts] at h ⊢
  rw [Node.sourcePlaces, objectSpan, List.head?_map, List.getLast?_map]
  cases hfirst : name.identifiers.head? with
  | none => simp [List.head?_eq_none_iff.1 hfirst] at h
  | some first =>
      cases hlast : name.identifiers.getLast? with
      | none => simp [List.getLast?_eq_none_iff.1 hlast] at h
      | some last => exact List.mem_singleton_self _

theorem relationItem_unresolved {w : Walker Id} {ctes : List Binding}
    {outer : List Frame} {node : Node} {parts : List (Text × ByteRange)}
    (h : (w.relationItem ctes outer node).unresolved = some parts) :
    (node.direct .subquery).isEmpty = true ∧
      ∃ name, (node.direct .objectReference).getLast? = some name ∧
        w.identifierParts name = parts ∧ parts ≠ [] := by
  rw [relationItem] at h
  split at h
  · cases h
  · next hsub =>
      refine ⟨List.isEmpty_iff.2 (List.getLast?_eq_none_iff.1 hsub), ?_⟩
      cases hname : (node.direct .objectReference).getLast? with
      | none => simp [hname] at h
      | some name =>
          simp only [hname, Option.map_some, Option.getD_some] at h
          split at h
          · cases h
          · next hparts =>
              split at h
              · cases h
              · cases h
              · obtain rfl := Option.some.inj h
                exact ⟨name, rfl, rfl, hparts⟩

omit [DecidableEq Id] [Unicode] in
theorem lateralItem_unresolved (w : Walker Id) (node : Node) :
    (w.lateralItem node).unresolved = none := by
  rw [lateralItem]
  split <;> rfl

theorem bindTarget_unresolved {w : Walker Id} {ctes : List Binding}
    {outer : List Frame} {target : Node} {own : Option Text}
    {parts : List (Text × ByteRange)}
    (h : (w.bindTarget ctes outer target own).unresolved = some parts) :
    w.identifierParts target = parts ∧ parts ≠ [] := by
  rw [bindTarget] at h
  split at h
  · cases h
  · next hparts =>
      split at h
      · cases h
      · cases h
      · obtain rfl := Option.some.inj h
        exact ⟨rfl, hparts⟩

/-- Phase A and the search for names go equally far. -/
theorem phaseA_snd (w : Walker Id) (ctes : List Binding)
    (outer : List Frame) (siblings : List Node) (node : Node) :
    (w.phaseA ctes outer siblings node).2 =
      (Node.nameStep siblings node).2 := by
  rw [phaseA, Node.nameStep]
  split
  · rfl
  · cases node.kind <;> rfl

/-- A source whose name does not resolve is one of the names. -/
theorem unresolved_mem_nameStep {w : Walker Id} {ctes : List Binding}
    {outer : List Frame} {siblings : List Node} {node : Node}
    {source : Source} {parts : List (Text × ByteRange)}
    (hsource : source ∈ (w.phaseA ctes outer siblings node).1)
    (h : source.unresolved = some parts) :
    ∃ name ∈ (Node.nameStep siblings node).1,
      w.identifierParts name = parts ∧ parts ≠ [] := by
  rw [phaseA] at hsource
  rw [Node.nameStep]
  split at hsource
  · cases hsource
  · next hbinds =>
      rw [if_neg hbinds]
      cases hkind : node.kind
      case relation =>
        simp only [hkind, List.mem_singleton] at hsource
        subst hsource
        obtain ⟨hsub, name, hname, hparts⟩ := relationItem_unresolved h
        exact ⟨name, by simp [hsub, hname], hparts⟩
      case lateralJoin =>
        simp only [hkind, List.mem_singleton] at hsource
        subst hsource
        rw [lateralItem_unresolved] at h
        cases h
      case lateralCrossJoin =>
        simp only [hkind, List.mem_singleton] at hsource
        subst hsource
        rw [lateralItem_unresolved] at h
        cases h
      case fromClause =>
        simp only [hkind] at hsource
        split at hsource
        · next hdelete =>
            rw [dmlFrom] at hsource
            split at hsource
            · next target htarget =>
                rw [List.mem_singleton.1 hsource] at h
                exact ⟨target, by simp [hdelete, htarget],
                  bindTarget_unresolved h⟩
            · cases hsource
        · cases hsource
      case insert =>
        simp only [hkind, dmlTarget] at hsource
        split at hsource
        · next target htarget =>
            rw [List.mem_singleton.1 hsource] at h
            exact ⟨target, by simp [htarget], bindTarget_unresolved h⟩
        · cases hsource
      all_goals simp [hkind] at hsource

end Walker

/-! ## Column references that are resolved -/

theorem resolve_mem_fieldStep {levels levels' : List Level}
    {node field : Node}
    (h : Event.resolve field levels' ∈ (resolveStep levels node).1) :
    field ∈ (Node.fieldStep node).1 := by
  cases node with
  | node kind start stop children =>
      cases kind <;> simp_all [resolveStep, Node.fieldStep, SpanTree.kind]

theorem bound_notMem_resolveStep {levels : List Level} {node : Node}
    {source : Source} : Event.bound source ∉ (resolveStep levels node).1 := by
  cases node with
  | node kind start stop children =>
      cases kind <;> simp [resolveStep, SpanTree.kind]

theorem resolveStep_snd_eq (levels : List Level) (node : Node) :
    (resolveStep levels node).2 = (Node.fieldStep node).2 := by
  cases node with
  | node kind start stop children => cases kind <;> rfl

theorem bound_notMem_resolvePart {levels : List Level} {part : Node}
    {source : Source} : Event.bound source ∉ resolvePart levels part := by
  rw [resolvePart]
  split
  · exact List.not_mem_nil
  · intro h
    obtain ⟨_, -, hfalse⟩ := SpanTree.exists_mem_visitStack
      (g := Node.fieldStep) (R := fun _ => False)
      (fun _ hmem => absurd hmem bound_notMem_resolveStep)
      (fun node hgo => (resolveStep_snd_eq levels node).symm.trans hgo) h
    exact hfalse

theorem resolve_mem_resolvePart {levels levels' : List Level}
    {part field : Node} (h : Event.resolve field levels' ∈
      resolvePart levels part) :
    part.kind ≠ .setOperation ∧
      field ∈ SpanTree.visitStack Node.fieldStep part := by
  rw [resolvePart] at h
  split at h
  · cases h
  · next hset =>
      obtain ⟨_, hfield, rfl⟩ := SpanTree.exists_mem_visitStack
        (g := Node.fieldStep) (R := fun node => node = field)
        (fun _ hmem => ⟨field, resolve_mem_fieldStep hmem, rfl⟩)
        (fun node hgo => (resolveStep_snd_eq levels node).symm.trans hgo) h
      exact ⟨hset, hfield⟩

/-! ## Where diagnostics are -/

namespace Walker

variable {Id : Type} [DecidableEq Id] [Unicode]

/-- What a group of clauses reports, but syntax errors, is at one of its
places. -/
theorem range_mem_group_places {w : Walker Id} {group : Node.Group}
    {ctes : List Binding} {outer : List Level} {e : Event} {d : Diagnostic}
    (he : e ∈ w.groupEvents group ctes outer) (hd : w.diagnose e = some d)
    (hkind : d.kind ≠ .syntaxError) : d.range ∈ group.places := by
  rw [groupEvents, List.mem_append, List.mem_flatMap] at he
  rw [Node.Group.places, List.mem_append, List.mem_flatMap, List.mem_flatMap]
  cases e with
  | syntaxError node =>
      obtain rfl := Option.some.inj hd
      exact absurd rfl hkind
  | bound source =>
      left
      rcases he with hbound | ⟨part, -, hpart⟩
      · have hsource : source ∈ (w.groupLevel group ctes outer).sources := by
          simpa using hbound
        obtain ⟨part, hpart, hsource⟩ := List.mem_flatMap.1 hsource
        rw [diagnose, sourceDiagnostic] at hd
        split at hd
        · next parts hparts =>
            split at hd
            · obtain rfl := Option.some.inj hd
              obtain ⟨name, hname, rfl, hne⟩ := SpanTree.exists_mem_visitIn
                (g := Node.nameStep)
                (fun _ _ hmem => unresolved_mem_nameStep hmem hparts)
                (fun siblings node hgo =>
                  (phaseA_snd w ctes _ siblings node).symm.trans hgo) hsource
              exact ⟨name, List.mem_flatMap.2 ⟨part, hpart, hname⟩,
                objectSpan_mem_sourcePlaces hne⟩
            · cases hd
        · cases hd
      · exact absurd hpart bound_notMem_resolvePart
  | resolve field levels =>
      right
      rcases he with hbound | ⟨part, hpart, hresolve⟩
      · simp at hbound
      · obtain ⟨hset, hfield⟩ := resolve_mem_resolvePart hresolve
        refine ⟨field, List.mem_flatMap.2 ⟨part, hpart, ?_⟩,
          (resolveField_eq_some hd).2⟩
        rwa [if_neg hset]

/-- The analysis of a file reports relations and columns at the places of
names. -/
theorem range_mem_places {w : Walker Id} {root : Node} {d : Diagnostic}
    (hd : d ∈ (w.analyzeNow root).diagnostics)
    (hkind : d.kind ≠ .syntaxError) : d.range ∈ root.places := by
  obtain ⟨e, he, hdiagnose⟩ := mem_diagnostics_iff.1 hd
  obtain ⟨region, hregion, he⟩ := List.mem_flatMap.1 he
  rw [rootEvents] at he
  have hbroken : ∀ node, e ≠ .syntaxError node := by
    rintro node rfl
    obtain rfl := Option.some.inj hdiagnose
    exact hkind rfl
  split at he
  · exact absurd (List.mem_singleton.1 he) (hbroken region)
  · next herror =>
      obtain ⟨r, hr, ⟨-, hnode⟩ | ⟨group, hgroup, ctes, outer, hmem⟩⟩ :=
        arises_of_mem_events he
      · exact absurd hnode (hbroken r)
      · refine List.mem_flatMap.2 ⟨region,
          List.mem_filter.2 ⟨hregion, by simp [herror]⟩, ?_⟩
        exact List.mem_flatMap.2 ⟨r, hr, List.mem_flatMap.2
          ⟨group, hgroup, range_mem_group_places hmem hdiagnose hkind⟩⟩

/-- If no name of a file is read inside an error, then no relation and no column
is reported inside an error. -/
theorem semantic_outside_errors (w : Walker Id) (root : Node)
    (h : ∀ place ∈ root.places, ¬root.InsideError place) :
    ∀ d ∈ (w.analyzeNow root).diagnostics, d.kind ≠ .syntaxError →
      ¬root.InsideError d.range := by
  intro d hd hkind
  exact h d.range (range_mem_places hd hkind)

end Walker

/-! ## A name inside an error -/

section Sample

local instance asciiBroken : Unicode := Unicode.ascii

/-- `select id , t.zz ( users users.id`. The parser goes back to the name `t.zz`,
and what it skips up to the last dot is an error inside the column's name. -/
def brokenName : Node :=
  .node (.other "program") 0 33
    [.node .statement 0 33
      [.node .select 0 33
        [.leaf (.keyword "select") 0 6,
          .node .selectExpression 7 33
            [.node .term 7 9 [.node .field 7 9 [.leaf .identifier 7 9]],
              .leaf .comma 10 11,
              .node .term 12 33
                [.node .field 12 33
                  [.node .objectReference 12 16
                    [.leaf .identifier 12 13, .leaf (.other ".") 13 14,
                      .leaf .identifier 14 16],
                    .node .error 17 30
                      [.leaf .openParen 17 18,
                        .node .term 19 30
                          [.node .field 19 24 [.leaf .identifier 19 24],
                            .leaf .identifier 25 30]],
                    .leaf (.other ".") 30 31, .leaf .identifier 31 33]]]]]]

/-- The relation `users.users` is reported as unknown, inside the error. -/
theorem unknownRelation_inside_error :
    ¬∀ d ∈ (Walker.analyzeNow
        ⟨"select id , t.zz ( users users.id".toList, usersCatalog⟩
        brokenName).diagnostics,
      d.kind ≠ .syntaxError → ¬Node.InsideError brokenName d.range := by
  decide +kernel

/-- `select x from users, nosuch limit`, whose last word is an error. -/
def brokenLimit : Node :=
  .node (.other "program") 0 33
    (besideNosuch.children
      ++ [.node .error 28 33 [.leaf (.keyword "limit") 28 33]])

theorem semantic_outside_errors_limit :
    (∃ d ∈ (Walker.analyzeNow
        ⟨"select x from users, nosuch limit".toList, usersCatalog⟩
        brokenLimit).diagnostics, d.kind ≠ .syntaxError) ∧
      ∀ d ∈ (Walker.analyzeNow
          ⟨"select x from users, nosuch limit".toList, usersCatalog⟩
          brokenLimit).diagnostics,
        d.kind ≠ .syntaxError → ¬Node.InsideError brokenLimit d.range :=
  ⟨by decide +kernel,
    Walker.semantic_outside_errors
      ⟨"select x from users, nosuch limit".toList, usersCatalog⟩
      brokenLimit (by decide +kernel)⟩

end Sample

end Tempr.Intel
