import Tempr.Intel.OutputAlias
import Tempr.Intel.Spelling

/-!
# Derived columns

The columns of a subquery in a `FROM` and of a CTE without a column list are
derived from the select list of its body: one for each term that is a plain
field.  The other terms are passed over, so that the derived list is partial
where a query has both kinds.
-/

namespace Tempr.Intel

open Tempr.Support
open Tempr.Editor (ByteRange Rope)

/-- The terms of a region's top select list. -/
def Node.topTerms (region : Node) : List Node :=
  ((findSelect region).map Node.terms).getD []

namespace Walker

section

variable {Id : Type} [DecidableEq Id] [Unicode] {w : Walker Id}

/-! ## What a select list produces -/

/-- The name that a plain field is written with: its alias, or its own. -/
def plainName (w : Walker Id) (term : Node) : Option Text :=
  if (Node.direct term .field).isEmpty then none
  else
    (Node.identifiers term).getLast?.map fun identifier =>
      w.textOf (Node.range identifier)

/-- The name of a column as it is produced. -/
def producedName (w : Walker Id) : ColumnRef → Option Text
  | .catalog index => (w.catalog.object index).map CatalogEntry.name
  | .local raw _ => some (normalizeIdentifier raw)

/-- The columns that a star stands for: those of all sources, or of the one that
it names. -/
def starColumns (w : Walker Id) (frame : Frame) (star : Node) : List ColumnRef :=
  match (w.identifierParts star).getLast? with
  | none => frame.bindings.flatMap Binding.columns
  | some (qualifier, _) =>
      (frame.bindings.filter (·.matchesQualifier qualifier)).flatMap
        Binding.columns

/-- The names of a term that is not a plain field: its alias, or the columns of
its stars. -/
def otherNames (w : Walker Id) (frame : Frame) (term : Node) : List Text :=
  match (Node.direct term .identifier).getLast? with
  | some identifier =>
      [normalizeIdentifier (w.textOf (Node.range identifier))]
  | none =>
      ((Node.direct term .allFields).flatMap (w.starColumns frame)).filterMap
        w.producedName

/-- The output names of a region's top select list, over the sources of
`frame`. -/
def outputNames (w : Walker Id) (frame : Frame) (region : Node) : List Text :=
  region.topTerms.flatMap fun term =>
    match w.plainName term with
    | some raw => [normalizeIdentifier raw]
    | none => w.otherNames frame term

omit [DecidableEq Id] [Unicode] in
theorem selectListColumns_eq (region : Node) :
    w.selectListColumns region =
      region.topTerms.filterMap fun term =>
        (w.plainName term).map fun raw => .local raw none := by
  rw [selectListColumns, Node.topTerms]
  cases findSelect region with
  | none => rfl
  | some select =>
      simp only [Option.map_some, Option.getD_some, Node.terms]
      cases (Node.direct select .selectExpression).head? with
      | none => rfl
      | some expr =>
          simp only [Option.map_some, Option.getD_some]
          apply List.filterMap_congr
          intro term _
          rw [plainName]
          split
          · rfl
          · rw [Option.map_map]
            rfl

/-! ## Derived bindings -/

/-- What is read of a CTE. -/
def cteHead (w : Walker Id) (cte : Node) : CteHead :=
  cte.children.foldl w.readCte ⟨none, [], 0, false, none⟩

/-- The columns of the binding are derived from the body: of a subquery in a
`FROM` or a lateral join, or of a CTE without a column list, also where an item
names it. -/
inductive Derives (w : Walker Id) : Binding → Node → Prop
  | relation {ctes : List Binding} {outer : List Frame} {node sub : Node}
      {binding : Binding} :
      (node.direct .subquery).getLast? = some sub →
        (w.relationItem ctes outer node).binding = some binding →
          Derives w binding sub
  | lateral {node sub : Node} {binding : Binding} :
      (node.direct .subquery).head? = some sub →
        (w.lateralItem node).binding = some binding → Derives w binding sub
  | cte {node body : Node} :
      (w.cteHead node).explicit = [] → (w.cteHead node).body = some body →
        Derives w (w.cteBinding node) body
  | cteItem {node body : Node} {own : Option Text} {range : ByteRange} :
      (w.cteHead node).explicit = [] → (w.cteHead node).body = some body →
        Derives w (ownCteBinding own range (w.cteBinding node)) body

omit [DecidableEq Id] [Unicode] in
theorem columns_cteBinding {node body : Node}
    (hexplicit : (w.cteHead node).explicit = [])
    (hbody : (w.cteHead node).body = some body) :
    (w.cteBinding node).columns = w.selectListColumns body := by
  rw [cteHead] at hexplicit hbody
  simp only [cteBinding, hexplicit, hbody, ne_eq, not_true_eq_false, if_false]

theorem Derives.columns {binding : Binding} {body : Node}
    (h : w.Derives binding body) :
    binding.columns = w.selectListColumns body := by
  cases h with
  | relation hsub hbinding =>
      rw [relationItem, hsub] at hbinding
      cases hbinding
      rfl
  | lateral hsub hbinding =>
      rw [lateralItem, hsub] at hbinding
      split at hbinding <;> cases hbinding
      rfl
  | cte hexplicit hbody => exact columns_cteBinding hexplicit hbody
  | cteItem hexplicit hbody => exact columns_cteBinding hexplicit hbody

/-! ## When the derived columns are complete -/

/-- Some plain field of the select list is written with the name, up to case. -/
def Writes (w : Walker Id) (region : Node) (name : Text) : Prop :=
  ∃ term ∈ region.topTerms, ∃ raw, w.plainName term = some raw ∧
    toLowercase raw = toLowercase name

/-- No term is a plain field, or what every other term and every spelling that
is not uniform produces is also written by some plain field. -/
def Covered (w : Walker Id) (frame : Frame) (region : Node) : Prop :=
  (∀ term ∈ region.topTerms, w.plainName term = none) ∨
    ∀ term ∈ region.topTerms,
      match w.plainName term with
      | some raw => Uniform raw ∨ w.Writes region (normalizeIdentifier raw)
      | none => ∀ name ∈ w.otherNames frame term, w.Writes region name

/-- A reference with a qualifier that the binding answers, to a column of the
name. -/
def RefersTo (w : Walker Id) (binding : Binding) (name : Text) (e : Event) :
    Prop :=
  ∃ field levels qualifier qualifierRange columnRange,
    e = .resolve field levels ∧
      w.identifierParts field =
        [(qualifier, qualifierRange), (name, columnRange)] ∧
      lookupQualifier (levels.map Level.frame) qualifier = some binding

omit [DecidableEq Id] [Unicode] in
theorem selectListColumns_eq_nil_iff {region : Node} :
    w.selectListColumns region = [] ↔
      ∀ term ∈ region.topTerms, w.plainName term = none := by
  rw [selectListColumns_eq, List.filterMap_eq_nil_iff]
  simp only [Option.map_eq_none_iff]

theorem Derives.columnHits_ne_nil_iff {binding : Binding} {body : Node}
    (h : w.Derives binding body) {name : Text} :
    binding.columnHits name w.catalog ≠ [] ↔ w.Writes body name := by
  rw [ne_eq, List.eq_nil_iff_forall_not_mem]
  push Not
  simp only [Binding.mem_columnHits, h.columns, selectListColumns_eq,
    List.mem_filterMap, Option.map_eq_some_iff]
  constructor
  · rintro ⟨_, ⟨term, hterm, raw, hraw, rfl⟩, _, hname, hfold⟩
    obtain rfl := Option.some.inj hname
    exact ⟨term, hterm, raw, hraw, hfold⟩
  · rintro ⟨term, hterm, raw, hraw, hfold⟩
    exact ⟨_, ⟨term, hterm, raw, hraw, rfl⟩, raw, rfl, hfold⟩

omit [DecidableEq Id] in
/-- Every output name is written by a plain field just if those of the other
terms are, and those that are spelled in another way. -/
theorem forall_writes_iff {frame : Frame} {region : Node} :
    (∀ name ∈ w.outputNames frame region, w.Writes region name) ↔
      ∀ term ∈ region.topTerms,
        match w.plainName term with
        | some raw => Uniform raw ∨ w.Writes region (normalizeIdentifier raw)
        | none => ∀ name ∈ w.otherNames frame term, w.Writes region name := by
  simp only [outputNames, List.mem_flatMap, forall_exists_index, and_imp]
  rw [forall_comm]
  refine forall_congr' fun term => ?_
  rw [forall_comm]
  refine imp_congr_right fun hterm => ?_
  cases hplain : w.plainName term with
  | none => rfl
  | some raw =>
      simp only [List.mem_singleton, forall_eq]
      constructor
      · exact .inr
      · rintro (huniform | hwrites)
        · exact ⟨term, hterm, raw, hplain, huniform⟩
        · exact hwrites

theorem RefersTo.not_unknownColumn {binding : Binding} {name : Text} {e : Event}
    (h : w.RefersTo binding name e)
    (hcomplete : binding.columns = [] ∨
      binding.columnHits name w.catalog ≠ []) :
    ∀ d ∈ w.diagnose e, d.kind ≠ .unknownColumn := by
  obtain ⟨field, levels, qualifier, qualifierRange, columnRange, rfl, hparts,
    hfound⟩ := h
  intro d hd hkind
  cases hloaded : w.loaded with
  | false =>
      rw [diagnose, resolveField_of_not_loaded hloaded] at hd
      cases hd
  | true =>
      rw [diagnose_qualified hloaded levels hparts, hfound] at hd
      change resolveAgainst w.catalog binding name columnRange qualifier =
        some d at hd
      rw [resolveAgainst] at hd
      split at hd
      · cases hd
      · rename_i hcolumns
        rcases hcomplete with hnil | hhits
        · exact hcolumns (by rw [hnil]; rfl)
        · split at hd
          · rename_i hnil
            exact hhits hnil
          · cases hd
          · cases hd
            cases hkind

/-- The derived columns of a subquery or CTE are complete or unknown, and no
reference to a column that its body produces is reported as unknown, if and only
if the plain fields of its select list cover the other terms. -/
theorem derived_complete_iff (w : Walker Id) (frame : Frame)
    {binding : Binding} {body : Node} (h : w.Derives binding body) :
    ((∀ name ∈ w.outputNames frame body,
        binding.columns = [] ∨ binding.columnHits name w.catalog ≠ []) ∧
      ∀ name ∈ w.outputNames frame body, ∀ e, w.RefersTo binding name e →
        ∀ d ∈ w.diagnose e, d.kind ≠ .unknownColumn) ↔
      w.Covered frame body := by
  have hcomplete : (∀ name ∈ w.outputNames frame body,
      binding.columns = [] ∨ binding.columnHits name w.catalog ≠ []) ↔
        w.Covered frame body := by
    rw [Covered, ← forall_writes_iff, h.columns, selectListColumns_eq_nil_iff]
    simp only [h.columnHits_ne_nil_iff, forall_or_left]
  rw [← hcomplete]
  refine ⟨And.left, fun hall => ⟨hall, fun name hname e he => ?_⟩⟩
  exact he.not_unknownColumn (hall name hname)

end

end Walker

/-! ## A partial list -/

section Sample

local instance asciiDerived : Unicode := Unicode.ascii

/-- `(select id, 1 as n from users)` -/
def partialBody : Node :=
  .node .subquery 16 46
    [.leaf .openParen 16 17,
      .node .select 17 34
        [.leaf (.keyword "select") 17 23,
          .node .selectExpression 24 34
            [.node .term 24 26
              [.node .field 24 26 [.leaf .identifier 24 26]],
              .leaf .comma 26 27,
              .node .term 28 34
                [.leaf .literal 28 29, .leaf .keywordAs 30 32,
                  .leaf .identifier 33 34]]],
      .node .fromClause 35 45
        [.leaf (.keyword "from") 35 39,
          .node .relation 40 45
            [.node .objectReference 40 45 [.leaf .identifier 40 45]]],
      .leaf .closeParen 45 46]

def partialItem : Node :=
  .node .relation 16 48 [partialBody, .leaf .identifier 47 48]

/-- `select t.n from (select id, 1 as n from users) t` -/
def partialRoot : Node :=
  .node (.other "program") 0 48
    [.node .statement 0 48
      [.node .select 0 10
        [.leaf (.keyword "select") 0 6,
          .node .selectExpression 7 10
            [.node .term 7 10
              [.node .field 7 10
                [.node .objectReference 7 8 [.leaf .identifier 7 8],
                  .leaf (.other ".") 8 9,
                  .leaf .identifier 9 10]]]],
        .node .fromClause 11 48
          [.leaf (.keyword "from") 11 15, partialItem]]]

def partialWalker : Walker ℕ where
  text := "select t.n from (select id, 1 as n from users) t".toList
  catalog := usersCatalog

/-- The binding of `t`. -/
def partialBinding : Binding where
  «alias» := some "t".toList
  name := none
  schema := none
  object := none
  columns := partialWalker.selectListColumns partialBody
  range := ⟨16, 48⟩

/-- The sources of the subquery. -/
def partialFrame : Frame :=
  (partialWalker.groupLevel ⟨partialBody.children, partialBody.children⟩ []
    []).frame

theorem partialBinding_derives :
    partialWalker.Derives partialBinding partialBody :=
  @Walker.Derives.relation _ _ _ partialWalker [] [] partialItem _ _ rfl
    (by decide)

/-- The subquery has a column `n`, and the reference to it is reported. -/
theorem partialBinding_incomplete :
    (∃ d ∈ (partialWalker.analyzeNow partialRoot).diagnostics,
        d.kind = .unknownColumn) ∧
      ¬((∀ name ∈ partialWalker.outputNames partialFrame partialBody,
          partialBinding.columns = [] ∨
            partialBinding.columnHits name partialWalker.catalog ≠ []) ∧
        ∀ name ∈ partialWalker.outputNames partialFrame partialBody, ∀ e,
          partialWalker.RefersTo partialBinding name e →
            ∀ d ∈ partialWalker.diagnose e, d.kind ≠ .unknownColumn) := by
  refine ⟨by decide +kernel, fun h => ?_⟩
  have hcomplete := h.1
  revert hcomplete
  decide

def coveredField : Node :=
  .node .term 25 27 [.node .field 25 27 [.leaf .identifier 25 27]]

def coveredLiteral : Node :=
  .node .term 29 36
    [.leaf .literal 29 30, .leaf .keywordAs 31 33, .leaf .identifier 34 36]

/-- `(select id, 1 as ID from users)` -/
def coveredBody : Node :=
  .node .subquery 17 48
    [.leaf .openParen 17 18,
      .node .select 18 36
        [.leaf (.keyword "select") 18 24,
          .node .selectExpression 25 36
            [coveredField, .leaf .comma 27 28, coveredLiteral]],
      .node .fromClause 37 47
        [.leaf (.keyword "from") 37 41,
          .node .relation 42 47
            [.node .objectReference 42 47 [.leaf .identifier 42 47]]],
      .leaf .closeParen 47 48]

def coveredItem : Node :=
  .node .relation 17 50 [coveredBody, .leaf .identifier 49 50]

def coveredWalker : Walker ℕ where
  text := "select t.id from (select id, 1 as ID from users) t".toList
  catalog := usersCatalog

def coveredBinding : Binding where
  «alias» := some "t".toList
  name := none
  schema := none
  object := none
  columns := coveredWalker.selectListColumns coveredBody
  range := ⟨17, 50⟩

theorem coveredBinding_derives :
    coveredWalker.Derives coveredBinding coveredBody :=
  @Walker.Derives.relation _ _ _ coveredWalker [] [] coveredItem _ _ rfl
    (by decide)

theorem coveredBody_covered (frame : Frame) :
    coveredWalker.Covered frame coveredBody := by
  have hterms : coveredBody.topTerms = [coveredField, coveredLiteral] := rfl
  refine .inr fun term hterm => ?_
  rw [hterms, List.mem_pair] at hterm
  rcases hterm with rfl | rfl
  · exact .inl (by rw [Uniform]; decide)
  · -- the alias of the literal is the name of the field
    intro name hname
    have hid : name = "id".toList := List.mem_singleton.1 hname
    refine ⟨coveredField, ?_, "id".toList, by decide, by rw [hid]⟩
    rw [hterms]
    exact List.mem_cons_self

/-- The list of `id` and `1 as n` is not complete; that of `id` and `1 as ID`
is. -/
theorem derived_complete_iff_partial :
    ¬partialWalker.Covered partialFrame partialBody ∧
      coveredBinding.columns = [.local "id".toList none] ∧
      ∀ frame, coveredWalker.outputNames frame coveredBody =
          ["id".toList, "id".toList] ∧
        ∀ name ∈ coveredWalker.outputNames frame coveredBody,
          ∀ e, coveredWalker.RefersTo coveredBinding name e →
            ∀ d ∈ coveredWalker.diagnose e, d.kind ≠ .unknownColumn := by
  refine ⟨?_, by decide, fun frame => ⟨rfl, ?_⟩⟩
  · rw [← Walker.derived_complete_iff partialWalker partialFrame
      partialBinding_derives]
    rintro ⟨hcomplete, -⟩
    revert hcomplete
    decide
  · exact ((Walker.derived_complete_iff coveredWalker frame
      coveredBinding_derives).2 (coveredBody_covered frame)).2

end Sample

end Tempr.Intel
