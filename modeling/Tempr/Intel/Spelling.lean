import Tempr.Intel.BareReferences
import Tempr.Intel.RecursiveCte

/-!
# Spellings of names

Aliases, names of CTEs and local columns are kept as they are written, while the
identifiers of a reference are normalised.  A reference in the spelling of its
declaration is therefore resolved to it if the two forms of the spelling are
equal up to case, as they are without quotes.
-/

namespace Tempr.Intel

open Tempr.Support
open Tempr.Editor (ByteRange Rope)

/-- Is the spelling in quotes? -/
def Quoted (raw : Text) : Prop :=
  2 ≤ raw.length ∧ raw.head? = some '"' ∧ raw.getLast? = some '"'

/-- As a declaration and as a reference the spelling is the same name, up to
case. -/
def Uniform [Unicode] (raw : Text) : Prop :=
  toLowercase raw = toLowercase (normalizeIdentifier raw)

section

variable {Id : Type} [DecidableEq Id] [Unicode]

/-! ## Sources and columns by a spelling -/

namespace Binding

/-- The name by which a binding is called. -/
def called (binding : Binding) : Option Text :=
  binding.alias.or binding.name

/-- The same source, perhaps by another item. -/
def SameSource (a b : Binding) : Prop :=
  a.called = b.called ∧ a.columns = b.columns

instance (a b : Binding) : Decidable (a.SameSource b) :=
  inferInstanceAs (Decidable (_ ∧ _))

theorem matchesQualifier_iff {binding : Binding} {raw : Text}
    (h : binding.called = some raw) (qualifier : Text) :
    binding.matchesQualifier qualifier = true ↔
      toLowercase raw = toLowercase qualifier := by
  rw [called] at h
  rw [matchesQualifier]
  cases halias : binding.alias with
  | some own =>
      rw [halias, Option.some_or, Option.some.injEq] at h
      rw [← h, decide_eq_true_iff]
  | none =>
      rw [halias, Option.none_or] at h
      rw [h]
      exact decide_eq_true_iff

omit [DecidableEq Id] in
theorem columnHits_append {binding : Binding} {before after : List ColumnRef}
    {name own : Text} {dataType : Option Text} {catalog : CatalogCache Id}
    (hcolumns : binding.columns = before ++ .local own dataType :: after)
    (hbefore : ∀ column ∈ before ++ after, ∀ other,
      column.name catalog = some other → toLowercase other ≠ toLowercase name) :
    binding.columnHits name catalog =
      if toLowercase own = toLowercase name then [.local own dataType]
      else [] := by
  have hnone : ∀ columns : List ColumnRef, (∀ column ∈ columns,
      column ∈ before ++ after) → columns.filter (fun column =>
        (column.name catalog).any fun other =>
          decide (toLowercase other = toLowercase name)) = [] := by
    intro columns hsub
    rw [List.filter_eq_nil_iff]
    intro column hcolumn
    cases hname : column.name catalog with
    | none => simp
    | some other => simpa using hbefore column (hsub column hcolumn) other hname
  rw [columnHits, hcolumns, List.filter_append, List.filter_cons,
    hnone before fun _ => List.mem_append_left after,
    hnone after fun _ => List.mem_append_right before]
  by_cases hown : toLowercase own = toLowercase name
  · simp [ColumnRef.name, hown]
  · simp [ColumnRef.name, hown]

end Binding

/-! ## References in the spelling of a declaration -/

namespace Walker

variable {w : Walker Id}

/-- The source is declared under the spelling: as an alias, or as the name of a
CTE. -/
inductive DeclaresName (w : Walker Id) (raw : Text) : Binding → Prop
  | relation {ctes : List Binding} {outer : List Frame} {node : Node}
      {binding : Binding} :
      w.relationAlias node = some raw →
        (w.relationItem ctes outer node).binding = some binding →
          DeclaresName w raw binding
  | lateral {node : Node} {binding : Binding} :
      w.aliasOf (node.direct .identifier).head? = some raw →
        (w.lateralItem node).binding = some binding → DeclaresName w raw binding
  | target {ctes : List Binding} {outer : List Frame} {target : Node}
      {binding : Binding} :
      (w.bindTarget ctes outer target (some raw)).binding = some binding →
        DeclaresName w raw binding
  | cte {node : Node} :
      (w.cteBinding node).name = some raw → DeclaresName w raw (w.cteBinding node)
  | cteItem {node : Node} {range : ByteRange} :
      (w.cteBinding node).name = some raw →
        DeclaresName w raw (ownCteBinding none range (w.cteBinding node))

/-- A column reference whose qualifier is spelled as the alias or name of a
visible source, and no other one is called so. -/
structure QualifierReference (w : Walker Id) where
  raw : Text
  binding : Binding
  field : Node
  levels : List Level
  level : Level
  column : Text
  qualifierRange : ByteRange
  columnRange : ByteRange
  declared : w.DeclaresName raw binding
  parts_eq : w.identifierParts field =
    [(normalizeIdentifier raw, qualifierRange), (column, columnRange)]
  level_mem : level ∈ levels
  binding_mem : binding ∈ level.ctes ++ level.frame.bindings
  alone : ∀ level ∈ levels, ∀ other ∈ level.ctes ++ level.frame.bindings,
    other.matchesQualifier (normalizeIdentifier raw) = true →
      other.SameSource binding
  /-- the source has the column, or it could -/
  column_found : binding.columns = [] ∨
    ∃ found, binding.columnHits column w.catalog = [found]

/-- A relation item that is spelled as the name of a visible CTE, and nothing
else has the name. -/
structure RelationReference (w : Walker Id) where
  raw : Text
  cte : Node
  node : Node
  ctes : List Binding
  outer : List Frame
  range : ByteRange
  declared : (w.cteBinding cte).name = some raw
  no_subquery : node.direct .subquery = []
  parts_eq : w.relationParts node = [(normalizeIdentifier raw, range)]
  binding_mem : ∃ visible ∈ ctes :: outer.map Frame.ctes,
    w.cteBinding cte ∈ visible
  alone : ∀ visible ∈ ctes :: outer.map Frame.ctes, ∀ other ∈ visible,
    other.matchesQualifier (normalizeIdentifier raw) = true →
      other = w.cteBinding cte
  not_catalog : resolveCatalogRel w.catalog none (normalizeIdentifier raw) =
    none

/-- A listed or derived column of a source, which has no other of the name. -/
structure LocalColumn (w : Walker Id) where
  raw : Text
  dataType : Option Text
  binding : Binding
  before : List ColumnRef
  after : List ColumnRef
  columns_eq : binding.columns = before ++ .local raw dataType :: after
  alone : ∀ column ∈ before ++ after, ∀ other,
    column.name w.catalog = some other →
      toLowercase other ≠ toLowercase (normalizeIdentifier raw)

/-- A reference that is spelled as a column of a visible source, and no other
source has such a column. -/
structure ColumnReference (w : Walker Id) extends LocalColumn w where
  field : Node
  /-- the levels inside of that of the source -/
  inner : List Level
  level : Level
  outer : List Level
  range : ByteRange
  bindings : List Binding × List Binding
  parts_eq : w.identifierParts field = [(normalizeIdentifier raw, range)]
  bindings_eq : level.frame.bindings = bindings.1 ++ binding :: bindings.2
  only : ∀ other ∈ (inner ++ outer).flatMap (fun level => level.frame.bindings)
      ++ bindings.1 ++ bindings.2,
    other.columnHits (normalizeIdentifier raw) w.catalog = []

/-- A reference with a qualifier that a source answers, and a column that is
spelled as one of the source. -/
structure MemberReference (w : Walker Id) extends LocalColumn w where
  field : Node
  levels : List Level
  qualifier : Text
  qualifierRange : ByteRange
  columnRange : ByteRange
  parts_eq : w.identifierParts field =
    [(qualifier, qualifierRange), (normalizeIdentifier raw, columnRange)]
  found : lookupQualifier (levels.map Level.frame) qualifier = some binding

/-- A reference in the spelling of what it refers to. -/
inductive SpelledReference (w : Walker Id)
  | qualifier (r : QualifierReference w)
  | relation (r : RelationReference w)
  | column (r : ColumnReference w)
  | member (r : MemberReference w)

namespace SpelledReference

def raw : SpelledReference w → Text
  | qualifier r => r.raw
  | relation r => r.raw
  | column r => r.raw
  | member r => r.raw

/-- What the walk leaves of the reference. -/
def event : SpelledReference w → Event
  | qualifier r => .resolve r.field r.levels
  | relation r => .bound (w.relationItem r.ctes r.outer r.node)
  | column r => .resolve r.field (r.inner ++ r.level :: r.outer)
  | member r => .resolve r.field r.levels

/-- The reference is resolved to its declaration. -/
def Resolves : SpelledReference w → Prop
  | qualifier r => ∃ found,
      lookupQualifier (r.levels.map Level.frame) (normalizeIdentifier r.raw) =
        some found ∧ found.SameSource r.binding
  | relation r =>
      resolveRelation w.catalog [normalizeIdentifier r.raw] r.ctes r.outer =
        .cte (w.cteBinding r.cte)
  | column r =>
      (∀ level ∈ r.inner,
        bareHits w.catalog (normalizeIdentifier r.raw) level.frame = []) ∧
      bareHits w.catalog (normalizeIdentifier r.raw) r.level.frame =
        [r.binding.label] ∧
      r.binding.columnHits (normalizeIdentifier r.raw) w.catalog =
        [.local r.raw r.dataType]
  | member r =>
      r.binding.columnHits (normalizeIdentifier r.raw) w.catalog =
        [.local r.raw r.dataType]

end SpelledReference

/-! ## Declarations keep their spelling -/

theorem alias_of_relationItem {ctes : List Binding} {outer : List Frame}
    {node : Node} {binding : Binding}
    (h : (w.relationItem ctes outer node).binding = some binding) :
    binding.alias = w.relationAlias node := by
  rw [relationItem] at h
  split at h
  · cases h
    rfl
  · split at h
    · cases h
    · split at h <;> cases h <;> rfl

omit [DecidableEq Id] [Unicode] in
theorem alias_of_lateralItem {node : Node} {binding : Binding}
    (h : (w.lateralItem node).binding = some binding) :
    binding.alias = w.aliasOf (node.direct .identifier).head? := by
  rw [lateralItem] at h
  split at h <;> cases h
  rfl

theorem alias_of_bindTarget {ctes : List Binding} {outer : List Frame}
    {target : Node} {own : Option Text} {binding : Binding}
    (h : (w.bindTarget ctes outer target own).binding = some binding) :
    binding.alias = own := by
  rw [bindTarget] at h
  split at h
  · cases h
  · split at h <;> cases h <;> rfl

theorem DeclaresName.called {raw : Text} {binding : Binding}
    (h : w.DeclaresName raw binding) : binding.called = some raw := by
  have halias : ∀ {own : Option Text}, binding.alias = own →
      own = some raw → binding.called = some raw := by
    intro own hown hraw
    rw [Binding.called, hown, hraw, Option.some_or]
  cases h with
  | relation hraw hbinding => exact halias (alias_of_relationItem hbinding) hraw
  | lateral hraw hbinding => exact halias (alias_of_lateralItem hbinding) hraw
  | target hbinding => exact halias (alias_of_bindTarget hbinding) rfl
  | cte hname => exact hname
  | cteItem hname => exact hname

/-! ## Each kind of reference -/

theorem QualifierReference.resolves_iff (r : QualifierReference w) :
    (SpelledReference.qualifier r).Resolves ↔ Uniform r.raw := by
  have hcalled := r.declared.called
  constructor
  · rintro ⟨found, hfound, hsame⟩
    obtain ⟨-, hmatches⟩ := lookupQualifier_eq_some hfound
    exact (Binding.matchesQualifier_iff (hsame.1.trans hcalled) _).1 hmatches
  · intro huniform
    have hmatches := (Binding.matchesQualifier_iff hcalled _).2 huniform
    have hsome : lookupQualifier (r.levels.map Level.frame)
        (normalizeIdentifier r.raw) ≠ none :=
      lookupQualifier_ne_none_iff.2
        ⟨r.level, r.level_mem, r.binding, r.binding_mem, hmatches⟩
    obtain ⟨found, hfound⟩ := Option.ne_none_iff_exists'.1 hsome
    obtain ⟨⟨level, hlevel, hmem⟩, hanswers⟩ := lookupQualifier_eq_some hfound
    exact ⟨found, hfound, r.alone level hlevel found hmem hanswers⟩

theorem QualifierReference.diagnose_eq_none (r : QualifierReference w)
    (h : (SpelledReference.qualifier r).Resolves) :
    w.diagnose (SpelledReference.qualifier r).event = none := by
  obtain ⟨found, hfound, -, hcolumns⟩ := h
  cases hloaded : w.loaded with
  | false => exact resolveField_of_not_loaded hloaded _ _
  | true =>
      rw [SpelledReference.event, diagnose_qualified hloaded _ r.parts_eq,
        hfound]
      dsimp only
      rw [resolveAgainst]
      rcases r.column_found with hnone | ⟨column, hcolumn⟩
      · rw [hcolumns, hnone]
        rfl
      · have hhits : found.columnHits r.column w.catalog = [column] := by
          rw [← hcolumn, Binding.columnHits, hcolumns]
          rfl
        rw [hhits]
        split <;> rfl

theorem RelationReference.resolves_iff (r : RelationReference w) :
    (SpelledReference.relation r).Resolves ↔ Uniform r.raw := by
  have hcalled : (w.cteBinding r.cte).called = some r.raw := r.declared
  have hmatches := Binding.matchesQualifier_iff hcalled
    (normalizeIdentifier r.raw)
  rw [SpelledReference.Resolves, resolveRelation_named, r.not_catalog]
  constructor
  · intro h
    cases hvisible : visibleCte r.ctes r.outer (normalizeIdentifier r.raw) with
    | some cte =>
        rw [hvisible] at h
        cases h
        exact hmatches.1 (visibleCte_eq_some hvisible).2
    | none =>
        rw [hvisible] at h
        cases h
  · intro huniform
    obtain ⟨visible, hmem, hcte⟩ := r.binding_mem
    have hsome : visibleCte r.ctes r.outer (normalizeIdentifier r.raw) ≠
        none := by
      rw [ne_eq, visibleCte_eq_none_iff, not_not]
      exact ⟨visible, hmem, _, hcte, hmatches.2 huniform⟩
    obtain ⟨cte, hvisible⟩ := Option.ne_none_iff_exists'.1 hsome
    obtain ⟨⟨visible', hmem', hcte'⟩, hanswers⟩ := visibleCte_eq_some hvisible
    rw [hvisible, ← r.alone visible' hmem' cte hcte' hanswers]

theorem RelationReference.diagnose_eq_none (r : RelationReference w)
    (h : Uniform r.raw) :
    w.diagnose (SpelledReference.relation r).event = none := by
  obtain ⟨visible, hmem, hcte⟩ := r.binding_mem
  have hcalled : (w.cteBinding r.cte).called = some r.raw := r.declared
  have hunresolved : (w.relationItem r.ctes r.outer r.node).unresolved =
      none := by
    rw [unresolved_eq_none_iff r.no_subquery r.parts_eq]
    left
    rw [ne_eq, visibleCte_eq_none_iff, not_not]
    exact ⟨visible, hmem, _, hcte,
      (Binding.matchesQualifier_iff hcalled _).2 h⟩
  rw [SpelledReference.event, diagnose, sourceDiagnostic, hunresolved]

omit [DecidableEq Id] in
theorem LocalColumn.columnHits (c : LocalColumn w) :
    c.binding.columnHits (normalizeIdentifier c.raw) w.catalog =
      if toLowercase c.raw = toLowercase (normalizeIdentifier c.raw) then
        [.local c.raw c.dataType]
      else [] :=
  Binding.columnHits_append c.columns_eq c.alone

omit [DecidableEq Id] in
theorem LocalColumn.columnHits_iff (c : LocalColumn w) :
    c.binding.columnHits (normalizeIdentifier c.raw) w.catalog =
      [.local c.raw c.dataType] ↔ Uniform c.raw := by
  rw [c.columnHits, Uniform]
  split <;> simp [*]

omit [DecidableEq Id] in
theorem LocalColumn.columns_ne_nil (c : LocalColumn w) :
    c.binding.columns ≠ [] := by
  rw [c.columns_eq]
  simp

namespace ColumnReference

variable (r : ColumnReference w)

omit [DecidableEq Id] in
theorem bareHits_inner {level : Level} (hlevel : level ∈ r.inner) :
    bareHits w.catalog (normalizeIdentifier r.raw) level.frame = [] := by
  refine bareHits_eq_nil_iff.2 fun other hother => r.only other ?_
  refine List.mem_append_left _ (List.mem_append_left _ ?_)
  exact List.mem_flatMap.2 ⟨level, List.mem_append_left _ hlevel, hother⟩

omit [DecidableEq Id] in
/-- In its level the source is the only one with such a column. -/
theorem bareHits_level (h : Uniform r.raw) :
    bareHits w.catalog (normalizeIdentifier r.raw) r.level.frame =
      [r.binding.label] := by
  have hbeside : ∀ beside : List Binding, (∀ other ∈ beside,
      other.columnHits (normalizeIdentifier r.raw) w.catalog = []) →
        beside.filter (fun binding => !binding.columns.isEmpty &&
          !(binding.columnHits (normalizeIdentifier r.raw)
            w.catalog).isEmpty) = [] := by
    intro beside hnone
    refine List.filter_eq_nil_iff.2 fun other hother => ?_
    simp [hnone other hother]
  have hcolumns : r.binding.columns.isEmpty = false :=
    List.isEmpty_eq_false_iff.2 r.columns_ne_nil
  rw [bareHits, r.bindings_eq, List.filter_append, List.filter_cons,
    hbeside r.bindings.1 fun other hother => r.only other (by simp [hother]),
    hbeside r.bindings.2 fun other hother => r.only other (by simp [hother]),
    (LocalColumn.columnHits_iff r.toLocalColumn).2 h, hcolumns]
  rfl

theorem resolves_iff : (SpelledReference.column r).Resolves ↔ Uniform r.raw := by
  have hhits := LocalColumn.columnHits_iff r.toLocalColumn
  exact ⟨fun h => hhits.1 h.2.2, fun h =>
    ⟨fun level => r.bareHits_inner, r.bareHits_level h, hhits.2 h⟩⟩

theorem diagnose_eq_none (h : (SpelledReference.column r).Resolves) :
    w.diagnose (SpelledReference.column r).event = none := by
  obtain ⟨hinner, hlevel, -⟩ := h
  cases hloaded : w.loaded with
  | false => exact resolveField_of_not_loaded hloaded _ _
  | true =>
      have hframes : ∀ frame ∈ r.inner.map Level.frame,
          bareHits w.catalog (normalizeIdentifier r.raw) frame = [] :=
        List.forall_mem_map.2 hinner
      rw [SpelledReference.event, diagnose, resolveField, if_pos hloaded,
        r.parts_eq, List.map_append, List.map_cons]
      refine (resolveBare_append hframes false _).trans ?_
      rw [resolveBare, hlevel]

end ColumnReference

theorem MemberReference.diagnose_eq_none (r : MemberReference w)
    (h : (SpelledReference.member r).Resolves) :
    w.diagnose (SpelledReference.member r).event = none := by
  cases hloaded : w.loaded with
  | false => exact resolveField_of_not_loaded hloaded _ _
  | true =>
      have hhits : r.binding.columnHits (normalizeIdentifier r.raw) w.catalog =
        [.local r.raw r.dataType] := h
      rw [SpelledReference.event, diagnose_qualified hloaded _ r.parts_eq,
        r.found]
      dsimp only
      rw [resolveAgainst, hhits]
      split <;> rfl

/-- A reference in the spelling of a declaration is resolved to it, without a
diagnostic, if and only if the spelling means the same name in both. -/
theorem resolves_silently_iff (w : Walker Id) (r : SpelledReference w) :
    (r.Resolves ∧ w.diagnose r.event = none) ↔ Uniform r.raw := by
  cases r with
  | qualifier r =>
      exact ⟨fun h => r.resolves_iff.1 h.1, fun h =>
        ⟨r.resolves_iff.2 h, r.diagnose_eq_none (r.resolves_iff.2 h)⟩⟩
  | relation r =>
      exact ⟨fun h => r.resolves_iff.1 h.1, fun h =>
        ⟨r.resolves_iff.2 h, r.diagnose_eq_none h⟩⟩
  | column r =>
      exact ⟨fun h => r.resolves_iff.1 h.1, fun h =>
        ⟨r.resolves_iff.2 h, r.diagnose_eq_none (r.resolves_iff.2 h)⟩⟩
  | member r =>
      have hiff := LocalColumn.columnHits_iff r.toLocalColumn
      exact ⟨fun h => hiff.1 h.1, fun h =>
        ⟨hiff.2 h, r.diagnose_eq_none (hiff.2 h)⟩⟩

end Walker

end

/-! ## Spellings in ASCII -/

theorem normalizeIdentifier_of_quoted {raw : Text} (h : Quoted raw) :
    normalizeIdentifier raw = unescapeQuotes (raw.drop 1).dropLast :=
  if_pos h

theorem normalizeIdentifier_of_not_quoted {raw : Text} (h : ¬Quoted raw) :
    normalizeIdentifier raw = raw.map Char.toLower :=
  if_neg h

theorem length_unescapeQuotes_le (text : Text) :
    (unescapeQuotes text).length ≤ text.length := by
  induction text using unescapeQuotes.induct with
  | case1 text ih =>
      rw [unescapeQuotes, List.length_cons, List.length_cons, List.length_cons]
      omega
  | case2 c text hquotes ih =>
      rw [unescapeQuotes.eq_2 c text hquotes, List.length_cons,
        List.length_cons]
      omega
  | case3 => exact Nat.le_refl 0

theorem toLower_toLower (c : Char) : c.toLower.toLower = c.toLower := by
  by_cases h : c.val ≥ 'A'.val ∧ c.val ≤ 'Z'.val
  · have hval : c.toLower.val = c.val + ('a'.val - 'A'.val) :=
      congrArg Char.val (dif_pos h)
    refine dif_neg fun hlower => ?_
    rw [hval] at hlower
    simp only [UInt32.le_iff_toNat_le, ge_iff_le] at h hlower
    simp at h hlower
    grind [UInt32.toNat_add]
  · have hsame : c.toLower = c := dif_neg h
    rw [hsame, hsame]

section Ascii

local instance asciiSpelling : Unicode := Unicode.ascii

/-- A spelling is the same name in both just if it is not in quotes. -/
theorem uniform_ascii_iff (raw : Text) : Uniform raw ↔ ¬Quoted raw := by
  constructor
  · intro h hquoted
    have hlength : (raw.map Char.toLower).length =
        ((normalizeIdentifier raw).map Char.toLower).length :=
      congrArg List.length h
    have hinside := length_unescapeQuotes_le (raw.drop 1).dropLast
    have htwo : 2 ≤ raw.length := hquoted.1
    rw [normalizeIdentifier_of_quoted hquoted, List.length_map,
      List.length_map] at hlength
    rw [List.length_dropLast, List.length_drop] at hinside
    omega
  · intro h
    rw [Uniform, normalizeIdentifier_of_not_quoted h]
    calc raw.map Char.toLower
        = raw.map (Char.toLower ∘ Char.toLower) :=
          List.map_congr_left fun c _ => (toLower_toLower c).symm
      _ = (raw.map Char.toLower).map Char.toLower := List.map_map.symm

/-! ### An alias in quotes -/

/-- `users "T"` -/
def quotedItem : Node :=
  .node .relation 19 28
    [.node .objectReference 19 24 [.leaf .identifier 19 24],
      .leaf .identifier 25 28]

/-- `"T".id` -/
def quotedField : Node :=
  .node .field 7 13
    [.node .objectReference 7 10 [.leaf .identifier 7 10],
      .leaf (.other ".") 10 11, .leaf .identifier 11 13]

def quotedStatement : Node :=
  .node .statement 0 28
    [.node .select 0 13
      [.leaf (.keyword "select") 0 6,
        .node .selectExpression 7 13 [.node .term 7 13 [quotedField]]],
      .node .fromClause 14 28 [.leaf (.keyword "from") 14 18, quotedItem]]

def quotedRoot : Node :=
  .node (.other "program") 0 28 [quotedStatement]

def quotedWalker : Walker ℕ where
  text := "select \"T\".id from users \"T\"".toList
  catalog := usersCatalog

def quotedLevel : Level :=
  quotedWalker.groupLevel ⟨quotedStatement.children, quotedStatement.children⟩
    [] []

def quotedReference : Walker.QualifierReference quotedWalker where
  raw := "\"T\"".toList
  binding := quotedWalker.catalogBinding (some "\"T\"".toList) ⟨19, 24⟩ 0
  field := quotedField
  levels := [quotedLevel]
  level := quotedLevel
  column := "id".toList
  qualifierRange := ⟨7, 10⟩
  columnRange := ⟨11, 13⟩
  declared := @Walker.DeclaresName.relation _ _ _ _ _ [] [] quotedItem _
    (by decide) (by decide)
  parts_eq := by decide
  level_mem := List.mem_singleton_self _
  binding_mem := by decide
  alone := by decide
  column_found := .inr ⟨_, rfl⟩

theorem quotedReference_mem_events :
    (Walker.SpelledReference.qualifier quotedReference).event ∈
      quotedWalker.events quotedRoot :=
  Walker.mem_events_of_reaches (List.mem_singleton_self _) (.self _ _)
    (.inr ⟨_, List.mem_singleton_self _, List.mem_of_getElem? (i := 1) rfl⟩)

/-- The qualifier in the spelling of the alias is an unknown relation. -/
theorem quotedReference_reported :
    ¬∀ r : Walker.SpelledReference quotedWalker,
      r.event ∈ quotedWalker.events quotedRoot →
        r.Resolves ∧ quotedWalker.diagnose r.event = none := by
  intro h
  obtain ⟨-, hsilent⟩ := h _ quotedReference_mem_events
  revert hsilent
  decide

def unquotedWalker : Walker ℕ where
  text := "select Own.id from users Own".toList
  catalog := usersCatalog

def unquotedLevel : Level :=
  unquotedWalker.groupLevel
    ⟨quotedStatement.children, quotedStatement.children⟩ [] []

/-- `Own.id`, in a tree of the same shape. -/
def unquotedReference : Walker.QualifierReference unquotedWalker where
  raw := "Own".toList
  binding := unquotedWalker.catalogBinding (some "Own".toList) ⟨19, 24⟩ 0
  field := quotedField
  levels := [unquotedLevel]
  level := unquotedLevel
  column := "id".toList
  qualifierRange := ⟨7, 10⟩
  columnRange := ⟨11, 13⟩
  declared := @Walker.DeclaresName.relation _ _ _ _ _ [] [] quotedItem _
    (by decide) (by decide)
  parts_eq := by decide
  level_mem := List.mem_singleton_self _
  binding_mem := by decide
  alone := by decide
  column_found := .inr ⟨_, rfl⟩

/-- Without quotes the qualifier is the alias, in any case. -/
theorem unquotedReference_silent :
    (Walker.SpelledReference.qualifier unquotedReference).Resolves ∧
      unquotedWalker.diagnose
        (Walker.SpelledReference.qualifier unquotedReference).event = none :=
  (Walker.resolves_silently_iff unquotedWalker _).2
    ((uniform_ascii_iff _).2 (by rw [Quoted]; decide))

end Ascii

end Tempr.Intel
