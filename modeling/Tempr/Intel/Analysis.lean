import Tempr.Editor.Selection
import Tempr.Intel.Catalog

/-!
# The analysis model

What the semantic engine produces for a text: a tree of scopes for each
statement, with the sources that each makes visible, and the diagnostics.
-/

namespace Tempr.Intel

open Tempr.Editor (ByteRange)

/-! ## Diagnostics -/

inductive Severity
  | warning
  | error
  deriving DecidableEq, Repr

inductive DiagnosticKind
  | syntaxError
  | unknownRelation
  | unknownColumn
  | ambiguousColumn
  deriving DecidableEq, Repr

namespace DiagnosticKind

def defaultSeverity : DiagnosticKind → Severity
  | ambiguousColumn => .warning
  | _ => .error

/-- Errors come before warnings. -/
def sortKey (kind : DiagnosticKind) : ℕ × ℕ :=
  (match kind.defaultSeverity with
    | .warning => 1
    | .error => 0,
   match kind with
    | syntaxError => 0
    | unknownRelation => 1
    | unknownColumn => 2
    | ambiguousColumn => 3)

end DiagnosticKind

structure Diagnostic where
  range : ByteRange
  kind : DiagnosticKind
  severity : Severity
  message : Text
  deriving DecidableEq, Repr

namespace Diagnostic

def new (kind : DiagnosticKind) (range : ByteRange) (message : Text) :
    Diagnostic :=
  { range, kind, severity := kind.defaultSeverity, message }

/-- What diagnostics are sorted by. -/
def key (d : Diagnostic) : ℕ × ℕ × ℕ :=
  (d.range.start, d.kind.sortKey)

/-- The order of the keys, from left to right. -/
def keyLe (a b : ℕ × ℕ × ℕ) : Prop :=
  a.1 < b.1 ∨ a.1 = b.1 ∧
    (a.2.1 < b.2.1 ∨ a.2.1 = b.2.1 ∧ a.2.2 ≤ b.2.2)

instance (a b : ℕ × ℕ × ℕ) : Decidable (keyLe a b) :=
  inferInstanceAs (Decidable (_ ∨ _))

/-- The diagnostics in the order in which they are shown. -/
def sorted (ds : List Diagnostic) : List Diagnostic :=
  ds.insertionSort fun a b => keyLe a.key b.key

theorem sorted_perm (ds : List Diagnostic) : (sorted ds).Perm ds :=
  List.perm_insertionSort _ ds

theorem mem_sorted {ds : List Diagnostic} {d : Diagnostic} :
    d ∈ sorted ds ↔ d ∈ ds :=
  (sorted_perm ds).mem_iff

end Diagnostic

/-! ## Sources -/

/-- One column that a source exposes: one of the catalog, by its place in the
arena, or one of a select list. -/
inductive ColumnRef
  | catalog (index : ℕ)
  | «local» (name : Text) (dataType : Option Text)
  deriving DecidableEq, Repr

/-- One source of a scope: a relation, a CTE or a subquery. -/
structure Binding where
  «alias» : Option Text
  /-- the relation's or CTE's own name -/
  name : Option Text
  schema : Option Text
  /-- the place of a relation of the catalog -/
  object : Option ℕ
  columns : List ColumnRef
  range : ByteRange
  deriving DecidableEq, Repr

variable {Id : Type} [DecidableEq Id] [Unicode]

/-- The name of the column, if `catalog` knows it. -/
def ColumnRef.name (catalog : CatalogCache Id) : ColumnRef → Option Text
  | .catalog index => (catalog.object index).map CatalogEntry.name
  | .local name _ => some name

namespace Binding

/-- Does this source answer a qualifier? An alias replaces the own name. -/
def matchesQualifier (binding : Binding) (qualifier : Text) : Bool :=
  match binding.alias with
  | some own => decide (toLowercase own = toLowercase qualifier)
  | none => binding.name.any fun name =>
      decide (toLowercase name = toLowercase qualifier)

/-- The columns whose folded names match. -/
def columnHits (binding : Binding) (name : Text) (catalog : CatalogCache Id) :
    List ColumnRef :=
  binding.columns.filter fun column =>
    (column.name catalog).any fun own =>
      decide (toLowercase own = toLowercase name)

omit [DecidableEq Id] in
theorem mem_columnHits {binding : Binding} {name : Text}
    {catalog : CatalogCache Id} {column : ColumnRef} :
    column ∈ binding.columnHits name catalog ↔
      column ∈ binding.columns ∧ ∃ own, column.name catalog = some own ∧
        toLowercase own = toLowercase name := by
  rw [columnHits, List.mem_filter]
  cases column.name catalog <;> simp

end Binding

/-! ## Scopes -/

/-- The sources visible in a region of a query, and the scopes of the queries
inside. -/
structure Scope where
  range : ByteRange
  ctes : List Binding
  bindings : List Binding
  children : List Scope

namespace Scope

/-- Does the scope's range touch the offset? -/
def contains (scope : Scope) (offset : ℕ) : Bool :=
  decide (scope.range.start ≤ offset ∧ offset ≤ scope.range.stop)

mutual

/-- The scope and those of its scopes that contain the offset, innermost
last. -/
def chain (offset : ℕ) : Scope → List Scope
  | ⟨range, ctes, bindings, children⟩ =>
      ⟨range, ctes, bindings, children⟩
        :: (descend offset children).getD []

/-- The last of the scopes that contains the offset, with those inside. -/
def descend (offset : ℕ) : List Scope → Option (List Scope)
  | [] => none
  | scope :: scopes =>
      match descend offset scopes with
      | some found => some found
      | none =>
          if scope.contains offset then some (chain offset scope) else none

end

end Scope

/-- The scopes of the statements, and the diagnostics in their order. -/
structure Analysis where
  scopes : List Scope
  diagnostics : List Diagnostic

/-- The analysis of a text without a tree. -/
def Analysis.empty : Analysis :=
  ⟨[], []⟩

/-- The scopes that contain the offset, outermost first. -/
def Analysis.scopeChain (analysis : Analysis) (offset : ℕ) : List Scope :=
  (Scope.descend offset analysis.scopes).getD []

end Tempr.Intel
