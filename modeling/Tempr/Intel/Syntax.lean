import Tempr.Editor.Selection
import Tempr.Support.SpanTree
import Tempr.Intel.Text

/-!
# Syntax trees

The trees of the SQL grammar as the semantic engine reads them. The kinds that
it tells apart have names here; all others are alike to it.
-/

namespace Tempr.Intel

open Tempr.Support
open Tempr.Editor (ByteRange)

inductive NodeKind
  /-- `ERROR` -/
  | error
  | statement
  | transaction
  | block
  | subquery
  | cte
  | setOperation
  | select
  | selectExpression
  | term
  /-- `from` -/
  | fromClause
  | insert
  | delete
  | relation
  | lateralJoin
  | lateralCrossJoin
  | objectReference
  | identifier
  | field
  | literal
  | parameter
  | allFields
  | invocation
  /-- `case` -/
  | caseExpression
  | comment
  /-- `;` -/
  | semicolon
  /-- `,` -/
  | comma
  /-- `(` -/
  | openParen
  /-- `)` -/
  | closeParen
  | keywordAs
  /-- any other keyword -/
  | keyword (name : String)
  | other (name : String)
  deriving DecidableEq, Repr

/-- A node of a syntax tree. -/
abbrev Node := SpanTree NodeKind

namespace NodeKind

/-- Kinds whose names begin with `keyword_`. -/
def isKeyword : NodeKind → Bool
  | keywordAs => true
  | keyword _ => true
  | _ => false

def isIdentifier (kind : NodeKind) : Bool := decide (kind = identifier)

def isSubquery (kind : NodeKind) : Bool := decide (kind = subquery)

/-- What has its own scope. -/
def opensScope (kind : NodeKind) : Bool :=
  decide (kind = subquery ∨ kind = cte)

/-- Where no subquery is looked for. -/
def hidesSubqueries (kind : NodeKind) : Bool :=
  decide (kind = error ∨ kind = cte)

/-- What starts a side of a set operation. -/
def startsSide (kind : NodeKind) : Bool :=
  decide (kind = select ∨ kind = setOperation)

/-- What stands between and around the sides of a set operation. -/
def isSeparator (kind : NodeKind) : Bool :=
  kind.isKeyword || decide (kind = openParen ∨ kind = closeParen)

/-- Below what no source is looked for. -/
def bindsNothing (kind : NodeKind) : Bool :=
  kind.isKeyword || decide (kind = field ∨ kind = literal ∨ kind = parameter
    ∨ kind = allFields ∨ kind = invocation ∨ kind = caseExpression
    ∨ kind = subquery ∨ kind = cte ∨ kind = error ∨ kind = setOperation)

end NodeKind

namespace Node

def range (node : Node) : ByteRange := ⟨node.start, node.stop⟩

/-- Direct children of a kind. -/
def direct (node : Node) (kind : NodeKind) : List Node :=
  node.children.filter fun child => child.kind = kind

theorem mem_direct {node child : Node} {kind : NodeKind} :
    child ∈ node.direct kind ↔ child ∈ node.children ∧ child.kind = kind := by
  simp [direct]

theorem direct_eq_nil_iff {node : Node} {kind : NodeKind} :
    node.direct kind = [] ↔
      ∀ child ∈ node.children, SpanTree.kind child ≠ kind := by
  simp [direct, List.filter_eq_nil_iff]

/-- The identifiers below a node, outside of what has its own scope. -/
def identifiers (node : Node) : List Node :=
  node.children.flatMap
    (SpanTree.topmost NodeKind.isIdentifier NodeKind.opensScope)

/-- The subqueries of a node outside of errors, CTEs and other subqueries. -/
def subqueries (node : Node) : List Node :=
  node.topmost NodeKind.isSubquery NodeKind.hidesSubqueries

/-- The statement regions below the root. -/
def regions (root : Node) : List Node :=
  (root.children.filter fun child =>
    !decide (child.kind = .semicolon ∨ child.kind = .comma)).filter
    fun child => !child.children.isEmpty

/-- The body of a CTE. -/
def cteBody (cte : Node) : Option Node :=
  (cte.direct .statement).head?

end Node

mutual

/-- The top `select` of a region. -/
def findSelect : Node → Option Node
  | .node kind start stop children =>
      if kind = .select then some (.node kind start stop children)
      else findSelectIn children

def findSelectIn : List Node → Option Node
  | [] => none
  | child :: rest =>
      if child.kind = .select ∨ child.kind = .statement
          ∨ child.kind = .setOperation ∨ child.kind = .subquery then
        match findSelect child with
        | some found => some found
        | none => findSelectIn rest
      else findSelectIn rest

end

/-- Split what follows, with `side` the side that has been begun. -/
def sidesFrom : Option (List Node) → List Node → List (List Node)
  | side, [] => side.toList
  | side, child :: rest =>
      if child.kind.startsSide then
        side.toList ++ sidesFrom (some [child]) rest
      else if child.kind.isSeparator then sidesFrom side rest
      else sidesFrom (side.map (· ++ [child])) rest

/-- The sides of a set operation: each begins with a `select` or a set operation
and goes on with the clauses that follow. -/
def setOperationSides (op : Node) : List (List Node) :=
  sidesFrom none op.children

/-- The span of the parts of a region. -/
def partsRange (parts : List Node) : ByteRange :=
  match parts.head?, parts.getLast? with
  | some first, some last => ⟨first.start, last.stop⟩
  | _, _ => ⟨0, 0⟩

/-- The span of the parts of a name. -/
def objectSpan (parts : List (Text × ByteRange)) : ByteRange :=
  match parts.head?, parts.getLast? with
  | some first, some last => ⟨first.2.start, last.2.stop⟩
  | _, _ => ⟨0, 0⟩

/-- Is a `from` among these siblings the target clause of a `DELETE`? -/
def isDeleteTargetClause (siblings : List Node) : Bool :=
  siblings.any fun sibling => decide (sibling.kind = .delete)

/-! ## Sides of set operations -/

theorem flatten_sidesFrom_sublist (side : Option (List Node))
    (children : List Node) :
    (sidesFrom side children).flatten.Sublist
      (side.getD [] ++ children) := by
  induction children generalizing side with
  | nil => cases side <;> simp [sidesFrom]
  | cons child rest ih =>
      rw [sidesFrom]
      split
      · have h := ih (some [child])
        cases side with
        | none => simpa using h
        | some side =>
            simpa using (List.Sublist.refl side).append h
      · split
        · exact (ih side).trans
            (List.Sublist.append_left (List.sublist_cons_self child rest) _)
        · cases side with
          | none => exact (ih none).trans (by simp)
          | some side => simpa using ih (some (side ++ [child]))

/-- The parts of the sides are children of the set operation. -/
theorem mem_children_of_mem_side {op part : Node} {side : List Node}
    (hside : side ∈ setOperationSides op) (hpart : part ∈ side) :
    part ∈ op.children :=
  (flatten_sidesFrom_sublist none op.children).subset
    (List.mem_flatten.2 ⟨side, hside, hpart⟩)

end Tempr.Intel
