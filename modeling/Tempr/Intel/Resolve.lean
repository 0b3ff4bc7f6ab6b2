import Tempr.Intel.Semantic

/-!
# Column references and diagnostics

How the semantic engine resolves a column reference against the frames of its
levels, the diagnostics that the events of a walk make, and the analysis of a
whole text or of the statements at one offset.
-/

namespace Tempr.Intel

open Tempr.Support
open Tempr.Editor (ByteRange Rope)

variable {Id : Type} [DecidableEq Id] [Unicode]

/-! ## Column references -/

/-- What a binding is called in the message of an ambiguity. -/
def Binding.label (binding : Binding) : Text :=
  (binding.alias.or binding.name).getD []

/-- The labels of the bindings of a frame that have the column. -/
def bareHits (catalog : CatalogCache Id) (name : Text) (frame : Frame) :
    List Text :=
  (frame.bindings.filter fun binding =>
    !binding.columns.isEmpty && !(binding.columnHits name catalog).isEmpty).map
    Binding.label

/-- Does a binding of the frame have columns? -/
def Frame.anyColumns (frame : Frame) : Bool :=
  frame.bindings.any fun binding => !binding.columns.isEmpty

/-- A reference without a qualifier: the innermost level with a match
decides. -/
def resolveBare (catalog : CatalogCache Id) (name : Text) (range : ByteRange)
    (anyColumns : Bool) : List Frame → Option Diagnostic
  | [] =>
      if anyColumns then
        some (.new .unknownColumn range
          ("unknown column `".toList ++ name ++ "`".toList))
      else none
  | frame :: frames =>
      match bareHits catalog name frame with
      | [] =>
          resolveBare catalog name range (anyColumns || frame.anyColumns) frames
      | [_] => none
      | hits =>
          some (.new .ambiguousColumn range
            ("ambiguous column `".toList ++ name ++ "` (matches ".toList
              ++ ", ".toList.intercalate (CatalogCache.sortedDistinct hits)
              ++ ")".toList))

/-- A qualified reference, against the source that answers the qualifier. -/
def resolveAgainst (catalog : CatalogCache Id) (binding : Binding)
    (column : Text) (range : ByteRange) (qualifier : Text) :
    Option Diagnostic :=
  if binding.columns.isEmpty then none
  else
    match binding.columnHits column catalog with
    | [] =>
        some (.new .unknownColumn range
          ("column `".toList ++ column ++ "` not found in `".toList
            ++ qualifier ++ "`".toList))
    | [_] => none
    | _ =>
        some (.new .ambiguousColumn range
          ("ambiguous column `".toList ++ column ++ "` within `".toList
            ++ qualifier ++ "`".toList))

/-- A reference with a schema, against a relation of the catalog. -/
def resolveCatalogColumns (catalog : CatalogCache Id) (relation : ℕ)
    (column : Text) (range : ByteRange) : Option Diagnostic :=
  match ((catalog.columnsOf relation).filter fun entry =>
      decide (toLowercase entry.name = toLowercase column)).filterMap
      fun entry => catalog.byId entry.id with
  | [] =>
      some (.new .unknownColumn range
        ("column `".toList ++ column ++ "` not found".toList))
  | [_] => none
  | _ =>
      some (.new .ambiguousColumn range
        ("ambiguous column `".toList ++ column ++ "`".toList))

/-- A reference by its parts. Of more than three the last ones count. -/
def resolveReference (catalog : CatalogCache Id) (frames : List Frame)
    (refs : List (Text × ByteRange)) : Option Diagnostic :=
  match refs.reverse with
  | [] => none
  | [(column, range)] => resolveBare catalog column range false frames
  | [(column, range), (qualifier, qualifierRange)] =>
      match lookupQualifier frames qualifier with
      | some binding => resolveAgainst catalog binding column range qualifier
      | none =>
          some (.new .unknownRelation qualifierRange
            ("unknown relation or alias `".toList ++ qualifier
              ++ "`".toList))
  | (column, range) :: (relation, relationRange) :: (schema, schemaRange)
      :: _ =>
      match resolveCatalogRel catalog (some schema) relation with
      | some idx => resolveCatalogColumns catalog idx column range
      | none =>
          some (.new .unknownRelation
            ⟨schemaRange.start, relationRange.stop⟩
            ("unknown relation `".toList ++ schema ++ ".".toList ++ relation
              ++ "`".toList))

/-! ## Diagnostics -/

def syntaxDiagnostic (node : Node) : Diagnostic :=
  .new .syntaxError node.range "syntax error".toList

/-- The diagnostic of a relation that resolves to nothing. -/
def unresolvedDiagnostic (parts : List (Text × ByteRange)) : Diagnostic :=
  .new .unknownRelation (objectSpan parts)
    ("unknown relation `".toList
      ++ ".".toList.intercalate (parts.map Prod.fst) ++ "`".toList)

namespace Walker

/-- Without a catalog nothing is said. -/
def resolveField (w : Walker Id) (field : Node) (frames : List Frame) :
    Option Diagnostic :=
  if w.loaded then resolveReference w.catalog frames (w.identifierParts field)
  else none

/-- The diagnostic of a source that has been collected. -/
def sourceDiagnostic (w : Walker Id) (source : Source) : Option Diagnostic :=
  match source.unresolved with
  | some parts => if w.loaded then some (unresolvedDiagnostic parts) else none
  | none => none

/-- The diagnostic of an event. -/
def diagnose (w : Walker Id) : Event → Option Diagnostic
  | .syntaxError node => some (syntaxDiagnostic node)
  | .bound source => w.sourceDiagnostic source
  | .resolve field levels => w.resolveField field (levels.map Level.frame)

end Walker

/-! ## What a reference is reported as -/

section Reports

variable {catalog : CatalogCache Id} {range : ByteRange} {d : Diagnostic}

omit [DecidableEq Id] in
theorem resolveBare_eq_some {name : Text} {anyColumns : Bool}
    {frames : List Frame}
    (h : resolveBare catalog name range anyColumns frames = some d) :
    d.kind ≠ .syntaxError ∧ d.range = range := by
  induction frames generalizing anyColumns with
  | nil =>
      rw [resolveBare] at h
      split at h
      · obtain rfl := Option.some.inj h
        simp [Diagnostic.new]
      · cases h
  | cons frame frames ih =>
      rw [resolveBare] at h
      split at h
      · exact ih h
      · cases h
      · obtain rfl := Option.some.inj h
        simp [Diagnostic.new]

omit [DecidableEq Id] in
theorem resolveAgainst_eq_some {binding : Binding} {column qualifier : Text}
    (h : resolveAgainst catalog binding column range qualifier = some d) :
    d.kind ≠ .syntaxError ∧ d.range = range := by
  rw [resolveAgainst] at h
  split at h
  · cases h
  · split at h
    · obtain rfl := Option.some.inj h
      simp [Diagnostic.new]
    · cases h
    · obtain rfl := Option.some.inj h
      simp [Diagnostic.new]

theorem resolveCatalogColumns_eq_some {relation : ℕ} {column : Text}
    (h : resolveCatalogColumns catalog relation column range = some d) :
    d.kind ≠ .syntaxError ∧ d.range = range := by
  rw [resolveCatalogColumns] at h
  split at h
  · obtain rfl := Option.some.inj h
    simp [Diagnostic.new]
  · cases h
  · obtain rfl := Option.some.inj h
    simp [Diagnostic.new]

/-- The places at which a reference can be reported: its column, its qualifier,
or the schema and relation before the column. -/
def referencePlaces : List ByteRange → List ByteRange
  | [] => []
  | [column] => [column]
  | [column, qualifier] => [column, qualifier]
  | column :: relation :: schema :: _ =>
      [column, ⟨schema.start, relation.stop⟩]

theorem resolveReference_eq_some {frames : List Frame}
    {refs : List (Text × ByteRange)}
    (h : resolveReference catalog frames refs = some d) :
    d.kind ≠ .syntaxError ∧
      d.range ∈ referencePlaces (refs.reverse.map Prod.snd) := by
  rw [resolveReference] at h
  split at h
  · cases h
  · next column range hrefs =>
      obtain ⟨hkind, hrange⟩ := resolveBare_eq_some h
      exact ⟨hkind, by simp [hrefs, referencePlaces, hrange]⟩
  · next column range qualifier qualifierRange hrefs =>
      split at h
      · obtain ⟨hkind, hrange⟩ := resolveAgainst_eq_some h
        exact ⟨hkind, by simp [hrefs, referencePlaces, hrange]⟩
      · obtain rfl := Option.some.inj h
        simp [hrefs, referencePlaces, Diagnostic.new]
  · next column range relation relationRange schema schemaRange rest hrefs =>
      split at h
      · obtain ⟨hkind, hrange⟩ := resolveCatalogColumns_eq_some h
        exact ⟨hkind, by simp [hrefs, referencePlaces, hrange]⟩
      · obtain rfl := Option.some.inj h
        simp [hrefs, referencePlaces, Diagnostic.new]

end Reports

namespace Walker

/-- A column reference is reported at one of its places, and never as a syntax
error. -/
theorem resolveField_eq_some {w : Walker Id} {field : Node}
    {frames : List Frame} {d : Diagnostic}
    (h : w.resolveField field frames = some d) :
    d.kind ≠ .syntaxError ∧
      d.range ∈ referencePlaces (field.identifiers.reverse.map Node.range) := by
  rw [resolveField] at h
  split at h
  · have hresolved := resolveReference_eq_some h
    rwa [identifierParts, ← List.map_reverse, List.map_map] at hresolved
  · cases h

/-! ## Analyses -/

/-- The events of one region of the root. A bare error there is reported, and is
no statement. -/
def rootEvents (w : Walker Id) (region : Node) : List Event :=
  if region.kind = .error then [.syntaxError region]
  else (w.walkRegion region []).events

/-- The events of a full analysis, in the order of the walk. -/
def events (w : Walker Id) (root : Node) : List Event :=
  root.regions.flatMap w.rootEvents

/-- The statements of a root. -/
def statements (root : Node) : List Node :=
  root.regions.filter fun region => !decide (region.kind = .error)

def analyzeNow (w : Walker Id) (root : Node) : Analysis where
  scopes := (statements root).map fun region => (w.walkRegion region []).scope
  diagnostics := Diagnostic.sorted ((w.events root).filterMap w.diagnose)

/-- The statements that matter at an offset: those that contain it, and the last
that begins before it. -/
def statementsAt (root : Node) (offset : ℕ) : List Node :=
  let regions := statements root
  let fallback := regions.zipIdx.reverse.find? fun p =>
    decide (p.1.start ≤ offset)
  (regions.zipIdx.filter fun p =>
    decide (p.1.start ≤ offset ∧ offset ≤ p.1.stop)
      || decide (fallback.map Prod.snd = some p.2)).map Prod.fst

/-- The analysis for one offset. -/
def analyzeRegionNow (w : Walker Id) (root : Node) (offset : ℕ) : Analysis where
  scopes := (statementsAt root offset).map fun region =>
    (w.walkRegion region []).scope
  diagnostics := []

theorem mem_diagnostics_iff {w : Walker Id} {root : Node} {d : Diagnostic} :
    d ∈ (w.analyzeNow root).diagnostics ↔
      ∃ e ∈ w.events root, w.diagnose e = some d := by
  rw [analyzeNow, Diagnostic.mem_sorted, List.mem_filterMap]

end Walker

end Tempr.Intel
