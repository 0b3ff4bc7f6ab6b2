import Tempr.Editor.Buffer
import Tempr.Intel.Analysis
import Tempr.Intel.Syntax

/-!
# The semantic engine

The walk over a syntax tree that builds the scopes of each statement, resolves
its column references against the sources and the catalog, and emits the
diagnostics. For each region the sources are collected first, then the
subqueries and CTE bodies inside are walked, and then the region's own column
references are resolved.

The walk of the code pushes diagnostics as it goes. Here it leaves a list of
events, each with what its diagnostic is made of, in the order of the code.
-/

namespace Tempr.Intel

open Tempr.Support
open Tempr.Editor (ByteRange Rope)

variable {Id : Type} [DecidableEq Id] [Unicode]

/-! ## Frames -/

/-- The sources visible at one nesting level. -/
structure Frame where
  ctes : List Binding
  bindings : List Binding
  deriving DecidableEq, Repr

/-- A source by qualifier: CTEs shadow bindings. -/
def Frame.qualifier (frame : Frame) (qualifier : Text) : Option Binding :=
  (frame.ctes.find? (·.matchesQualifier qualifier)).or
    (frame.bindings.find? (·.matchesQualifier qualifier))

/-- A source by qualifier, in the innermost frame that has one. -/
def lookupQualifier (frames : List Frame) (qualifier : Text) :
    Option Binding :=
  frames.findSome? fun frame => frame.qualifier qualifier

/-- A source of a level as it was collected. -/
structure Source where
  /-- what it makes visible, if anything -/
  binding : Option Binding
  /-- its name, where that resolves to nothing -/
  unresolved : Option (List (Text × ByteRange))
  deriving DecidableEq, Repr

/-- One nesting level of the walk: what its frame was made of. -/
structure Level where
  ctes : List Binding
  sources : List Source
  deriving DecidableEq, Repr

def Level.frame (level : Level) : Frame :=
  ⟨level.ctes, level.sources.filterMap Source.binding⟩

/-! ## Relations -/

/-- How a relation's name resolves. -/
inductive Resolution
  | cte (binding : Binding)
  | catalog (idx : ℕ)
  | none

/-- The one relation that folds to the name, looked for schema by schema. -/
def uniqueFolded (catalog : CatalogCache Id) (name : Text) :
    Option ℕ → List Text → Option ℕ
  | folded, [] => folded
  | folded, schema :: schemas =>
      match catalog.relationFolded schema name with
      | [] => uniqueFolded catalog name folded schemas
      | [idx] =>
          if folded.isSome then none
          else uniqueFolded catalog name (some idx) schemas
      | _ => none

/-- A relation of the catalog: an exact match first, then a unique folded
one. -/
def resolveCatalogRel (catalog : CatalogCache Id) (schema : Option Text)
    (name : Text) : Option ℕ :=
  match schema with
  | some schema =>
      match catalog.relationExact schema name with
      | some idx => some idx
      | none =>
          match catalog.relationFolded schema name with
          | [idx] => some idx
          | _ => none
  | none =>
      match catalog.schemas.findSome? (catalog.relationExact · name) with
      | some idx => some idx
      | none => uniqueFolded catalog name none catalog.schemas

/-- A relation by its name. CTEs shadow the catalog where there is no schema. -/
def resolveRelation (catalog : CatalogCache Id) (names : List Text)
    (ctes : List Binding) (outer : List Frame) : Resolution :=
  match names with
  | [] => .none
  | [name] =>
      match (ctes :: outer.map Frame.ctes).findSome?
          (·.find? (·.matchesQualifier name)) with
      | some found => .cte found
      | none =>
          match resolveCatalogRel catalog none name with
          | some idx => .catalog idx
          | none => .none
  | names =>
      match resolveCatalogRel catalog names.dropLast.getLast?
          (names.getLast?.getD []) with
      | some idx => .catalog idx
      | none => .none

/-- The columns of a relation of the catalog. -/
def catalogColumns (catalog : CatalogCache Id) (relation : ℕ) :
    List ColumnRef :=
  (catalog.columnsOf relation).filterMap fun entry =>
    (catalog.byId entry.id).map ColumnRef.catalog

/-! ## Reading the tree -/

/-- What the walk reads of: the text and the catalog. -/
structure Walker (Id : Type) where
  text : Rope
  catalog : CatalogCache Id

namespace Walker

/-- Is there a catalog to resolve against? -/
def loaded (w : Walker Id) : Bool :=
  decide (0 < w.catalog.nRelations)

/-- The text of a range; nothing if it is no range of the text. -/
def textOf (w : Walker Id) (range : ByteRange) : Text :=
  match w.text.charRange range with
  | .ok (start, stop) => w.text.slice start stop
  | .error _ => []

/-- The parts of a name, in order. -/
def identifierParts (w : Walker Id) (node : Node) : List (Text × ByteRange) :=
  node.identifiers.map fun identifier =>
    (normalizeIdentifier (w.textOf (Node.range identifier)),
      Node.range identifier)

/-- The columns of a region's top select list: those of its terms that are plain
fields. -/
def selectListColumns (w : Walker Id) (region : Node) : List ColumnRef :=
  match findSelect region with
  | none => []
  | some select =>
      match (Node.direct select .selectExpression).head? with
      | none => []
      | some expr =>
          (Node.direct expr .term).filterMap fun term =>
            if (Node.direct term .field).isEmpty then none
            else
              (Node.identifiers term).getLast?.map fun identifier =>
                .local (w.textOf (Node.range identifier)) none

/-- What has been read of a CTE. -/
structure CteHead where
  name : Option (Text × ByteRange)
  explicit : List ColumnRef
  depth : ℕ
  afterAs : Bool
  body : Option Node

/-- Read one child of a CTE. -/
def readCte (w : Walker Id) (head : CteHead) (child : Node) : CteHead :=
  match child.kind with
  | .openParen => { head with depth := head.depth + 1 }
  | .closeParen => { head with depth := head.depth - 1 }
  | .keywordAs => { head with afterAs := true }
  | .identifier =>
      if head.name.isNone ∧ head.depth = 0 ∧ head.afterAs = false then
        { head with
          name := some (w.textOf (Node.range child), Node.range child) }
      else if head.name.isSome ∧ head.depth = 1 ∧ head.afterAs = false then
        { head with
          explicit := head.explicit ++
            [.local (w.textOf (Node.range child)) none] }
      else head
  | .statement =>
      if head.body.isNone then { head with body := some child } else head
  | _ => head

/-- The source that a CTE is: its columns are listed or those of its body. -/
def cteBinding (w : Walker Id) (cte : Node) : Binding :=
  let head := cte.children.foldl w.readCte ⟨none, [], 0, false, none⟩
  { «alias» := none
    name := head.name.map Prod.fst
    schema := none
    object := none
    columns :=
      if head.explicit ≠ [] then head.explicit
      else
        match head.body with
        | some body => w.selectListColumns body
        | none => []
    range := (head.name.map Prod.snd).getD (Node.range cte) }

/-! ## Sources -/

/-- The source of a relation of the catalog. -/
def catalogBinding (w : Walker Id) (own : Option Text) (range : ByteRange)
    (idx : ℕ) : Binding :=
  { «alias» := own
    name := some (((w.catalog.object idx).map CatalogEntry.name).getD [])
    schema :=
      some (((w.catalog.object idx).bind CatalogEntry.schema).getD [])
    object := some idx
    columns := catalogColumns w.catalog idx
    range }

/-- The source of a CTE. -/
def ownCteBinding (own : Option Text) (range : ByteRange) (cte : Binding) :
    Binding :=
  { «alias» := own, name := cte.name, schema := none, object := none,
    columns := cte.columns, range }

/-- The text of a direct identifier, the last or the first. -/
def aliasOf (w : Walker Id) (identifier : Option Node) : Option Text :=
  identifier.map fun node => w.textOf (Node.range node)

/-- One item of a `FROM` or `JOIN`. A name that resolves to nothing binds with no
columns. -/
def relationItem (w : Walker Id) (ctes : List Binding) (outer : List Frame)
    (node : Node) : Source :=
  let parts := ((node.direct .objectReference).getLast?.map
    w.identifierParts).getD []
  let own := w.aliasOf (node.direct .identifier).getLast?
  match (node.direct .subquery).getLast? with
  | some sub =>
      { binding := some
          { «alias» := own, name := none, schema := none, object := none,
            columns := w.selectListColumns sub, range := node.range }
        unresolved := none }
  | none =>
      if parts = [] then ⟨none, none⟩
      else
        match resolveRelation w.catalog (parts.map Prod.fst) ctes outer with
        | .cte cte => ⟨some (ownCteBinding own (objectSpan parts) cte), none⟩
        | .catalog idx =>
            ⟨some (w.catalogBinding own (objectSpan parts) idx), none⟩
        | .none =>
            { binding := some
                { «alias» := own
                  name := some ((parts.map Prod.fst).getLast?.getD [])
                  schema := none, object := none, columns := []
                  range := objectSpan parts }
              unresolved := some parts }

/-- An item of a lateral join. -/
def lateralItem (w : Walker Id) (node : Node) : Source :=
  let own := w.aliasOf (node.direct .identifier).head?
  let columns := ((node.direct .subquery).head?.map w.selectListColumns).getD []
  if own = none ∧ columns = [] then ⟨none, none⟩
  else
    { binding := some
        { «alias» := own, name := none, schema := none, object := none,
          columns, range := node.range }
      unresolved := none }

/-- The target of an `INSERT` or `DELETE`. A name that resolves to nothing binds
nothing. -/
def bindTarget (w : Walker Id) (ctes : List Binding) (outer : List Frame)
    (target : Node) (own : Option Text) : Source :=
  let parts := w.identifierParts target
  if parts = [] then ⟨none, none⟩
  else
    match resolveRelation w.catalog (parts.map Prod.fst) ctes outer with
    | .cte cte => ⟨some (ownCteBinding own (objectSpan parts) cte), none⟩
    | .catalog idx =>
        ⟨some (w.catalogBinding own (objectSpan parts) idx), none⟩
    | .none => ⟨none, some parts⟩

/-- The target of an `INSERT`. -/
def dmlTarget (w : Walker Id) (ctes : List Binding) (outer : List Frame)
    (node : Node) : List Source :=
  match (node.direct .objectReference).head? with
  | some target => [w.bindTarget ctes outer target none]
  | none => []

/-- The target of a `DELETE`, in the `from` beside it. -/
def dmlFrom (w : Walker Id) (ctes : List Binding) (outer : List Frame)
    (clause : Node) : List Source :=
  match (clause.direct .objectReference).head? with
  | some target =>
      [w.bindTarget ctes outer target
        (w.aliasOf (clause.direct .identifier).head?)]
  | none => []

/-- What one node adds to the sources, and whether there may be more below. -/
def phaseA (w : Walker Id) (ctes : List Binding) (outer : List Frame)
    (siblings : List Node) (node : Node) : List Source × Bool :=
  if node.kind.bindsNothing then ([], false)
  else
    match node.kind with
    | .relation => ([w.relationItem ctes outer node], false)
    | .lateralJoin => ([w.lateralItem node], false)
    | .lateralCrossJoin => ([w.lateralItem node], false)
    | .fromClause =>
        (if isDeleteTargetClause siblings then w.dmlFrom ctes outer node
          else [], true)
    | .insert => (w.dmlTarget ctes outer node, true)
    | _ => ([], true)

end Walker

/-! ## The walk -/

inductive Event
  /-- an error of the grammar -/
  | syntaxError (node : Node)
  /-- a source has been collected -/
  | bound (source : Source)
  /-- a column reference is resolved, with the levels innermost first -/
  | resolve (field : Node) (levels : List Level)

/-- What the walk of a region leaves. -/
structure Walk where
  scope : Scope
  events : List Event

/-- What one node adds when a region resolves its own references, and whether
there may be more below. -/
def resolveStep (levels : List Level) (node : Node) : List Event × Bool :=
  match node.kind with
  | .field => ([.resolve node levels], true)
  | .subquery => ([], false)
  | .cte => ([], false)
  | .error => ([.syntaxError node], false)
  | _ => ([], true)

/-- Resolve the references of one part of a region. -/
def resolvePart (levels : List Level) (part : Node) : List Event :=
  if part.kind = .setOperation then []
  else SpanTree.visitStack (resolveStep levels) part

namespace Walker

/-- The walks of the CTE bodies of a region; only the earlier CTEs are visible
inside. -/
def cteBodyWalks (inner : Node → List Level → Walk) (owner : Option Node)
    (ctes : List Binding) (outer : List Level) : List Walk :=
  ((owner.map (Node.direct · .cte)).getD []).zipIdx.filterMap fun p =>
    (Node.cteBody p.1).map fun body =>
      let walk := inner body (⟨ctes.take p.2, []⟩ :: outer)
      { walk with scope := { walk.scope with range := Node.range body } }

/-- The walks of the subqueries of one part, or of a part that is itself a set
operation. -/
def partWalks (inner : Node → List Level → Walk) (levels : List Level)
    (part : Node) : List Walk :=
  if part.kind = .setOperation then [inner part levels]
  else (Node.subqueries part).map (inner · levels)

/-- Walk one region body from its clauses. -/
def walkParts (w : Walker Id) (inner : Node → List Level → Walk)
    (siblings parts : List Node) (range : ByteRange) (ctes : List Binding)
    (owner : Option Node) (outer : List Level) : Walk :=
  let level : Level :=
    { ctes
      sources := parts.flatMap
        (SpanTree.visitIn (w.phaseA ctes (outer.map Level.frame)) siblings) }
  let levels := level :: outer
  let walks := cteBodyWalks inner owner ctes outer
    ++ parts.flatMap (partWalks inner levels)
  { scope := ⟨range, ctes, level.frame.bindings, walks.map Walk.scope⟩
    events := level.sources.map .bound ++ walks.flatMap Walk.events
      ++ parts.flatMap (resolvePart levels) }

/-- Walk a region of set operations: each side has its own scope. -/
def walkSetOperation (w : Walker Id) (inner : Node → List Level → Walk)
    (region : Node) (ctes : List Binding) (outer : List Level)
    (ops : List Node) : Walk :=
  let levels : List Level := ⟨ctes, []⟩ :: outer
  let ops := if region.kind = .setOperation then [region] else ops
  let walks := cteBodyWalks inner (some region) ctes outer
    ++ ops.flatMap fun op =>
        (setOperationSides op).map fun side =>
          w.walkParts inner op.children side (partsRange side) [] none levels
  { scope := ⟨region.range, ctes, [], walks.map Walk.scope⟩
    events := walks.flatMap Walk.events }

/-- Walk one region, where `inner` walks the regions inside. -/
def walkRegionWith (w : Walker Id) (inner : Node → List Level → Walk)
    (region : Node) (outer : List Level) : Walk :=
  if region.kind = .error then
    ⟨⟨region.range, [], [], []⟩, [.syntaxError region]⟩
  else
    let ctes := (region.direct .cte).map w.cteBinding
    let ops := region.direct .setOperation
    if region.kind = .setOperation ∨ ops ≠ [] then
      w.walkSetOperation inner region ctes outer ops
    else
      w.walkParts inner region.children region.children region.range ctes
        (some region) outer

/-- Walk one region; `outer` holds the enclosing levels, nearest first. Every
region inside is smaller, so that the comparison below never fails, see
`walkRegion_eq`. -/
def walkRegion (w : Walker Id) (region : Node) (outer : List Level) : Walk :=
  w.walkRegionWith
    (fun sub levels =>
      if sub.size < region.size then w.walkRegion sub levels
      else ⟨⟨sub.range, [], [], []⟩, []⟩)
    region outer
termination_by region.size

end Walker

end Tempr.Intel
