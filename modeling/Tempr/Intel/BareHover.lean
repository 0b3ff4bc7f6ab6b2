import Tempr.Intel.BareReferences
import Tempr.Intel.ColumnCompletion
import Tempr.Intel.Requests

/-!
# Bare names in hover and in the analysis

Both look for a bare name scope by scope, and let the innermost scope with a
match decide. The analysis counts the sources of that scope that have the column,
hover counts their columns: one source that has two columns of the name is
ambiguous to hover only.
-/

namespace Tempr.Intel

open Tempr.Editor (ByteRange)

section

variable {Id : Type} [Unicode]

/-! ## The scope that decides -/

/-- The sources of a scope that have the column. -/
def columnHolders (catalog : CatalogCache Id) (word : Text) (scope : Scope) :
    List Binding :=
  scope.bindings.filter fun binding =>
    !(binding.columnHits word catalog).isEmpty

/-- The innermost scope with a source that has the column. -/
def decidingScope (catalog : CatalogCache Id) (word : Text)
    (chain : List Scope) : Option Scope :=
  chain.find? fun scope => !(columnHolders catalog word scope).isEmpty

variable {catalog : CatalogCache Id} {word : Text} {scope : Scope}
  {chain : List Scope}

theorem bareHits_frame :
    bareHits catalog word scope.frame =
      (columnHolders catalog word scope).map Binding.label := by
  rw [bareHits, columnHolders]
  congr 1
  apply List.filter_congr
  intro binding _
  by_cases hcolumns : binding.columns = []
  · simp [Binding.columnHits, hcolumns]
  · simp [hcolumns]

theorem scopeHits_eq :
    scopeHits catalog word scope =
      (columnHolders catalog word scope).flatMap fun binding =>
        (binding.columnHits word catalog).map fun column =>
          (binding, column) := by
  rw [scopeHits, columnHolders]
  induction scope.bindings with
  | nil => rfl
  | cons binding bindings ih =>
      rw [List.flatMap_cons, List.filter_cons, ih]
      by_cases hhits : binding.columnHits word catalog = []
      · simp [hhits]
      · simp [hhits]

theorem columnHits_ne_nil_of_mem_holders {binding : Binding}
    (h : binding ∈ columnHolders catalog word scope) :
    binding.columnHits word catalog ≠ [] := by
  simpa using (List.mem_filter.1 h).2

theorem columnHolders_ne_nil (h : decidingScope catalog word chain = some scope) :
    columnHolders catalog word scope ≠ [] := by
  simpa using List.find?_some h

/-! ## What hover answers -/

/-- What hover finds for a bare name in the visible scopes. -/
inductive BareAnswer
  | ambiguous (hits : List (Binding × ColumnRef))
  | found (binding : Binding) (column : ColumnRef)
  /-- no scope has a column of the name -/
  | other
  deriving DecidableEq

def BareAnswer.ofHits : List (Binding × ColumnRef) → BareAnswer
  | [] => .other
  | [(binding, column)] => .found binding column
  | hits => .ambiguous hits

/-- The card of an answer, if it is one about columns. -/
def BareAnswer.card (catalog : CatalogCache Id) (word : Text) :
    BareAnswer → Option (Option Text)
  | .ambiguous hits =>
      let names := hits.filterMap fun hit =>
        (bindingOwner catalog hit.1).map (· ++ ".".toList ++ word)
      some (some ("column `".toList ++ word ++ "` is ambiguous".toList
        ++ if names.isEmpty then [] else '\n' :: joinLines names))
  | .found binding column => some (columnCard catalog column (some binding))
  | .other => none

/-- The answer of the scope that decides. The chain of scopes has the innermost
first. -/
def Hover.bareAnswer (catalog : CatalogCache Id) (chain : List Scope)
    (word : Text) : BareAnswer :=
  ((decidingScope catalog word chain).map fun scope =>
    BareAnswer.ofHits (scopeHits catalog word scope)).getD .other

theorem card_bareAnswer :
    (Hover.bareAnswer catalog chain word).card catalog word =
      bareColumnCard catalog word chain := by
  induction chain with
  | nil => rfl
  | cons scope chain ih =>
      rw [bareColumnCard, Hover.bareAnswer, decidingScope, List.find?_cons]
      by_cases hholders : columnHolders catalog word scope = []
      · have hnil : scopeHits catalog word scope = [] := by
          rw [scopeHits_eq, hholders, List.flatMap_nil]
        rw [hholders, hnil]
        exact ih
      · obtain ⟨binding, rest, hcons⟩ := List.exists_cons_of_ne_nil hholders
        have hhits : scopeHits catalog word scope ≠ [] := by
          obtain ⟨column, columns, hcolumns⟩ := List.exists_cons_of_ne_nil
            (columnHits_ne_nil_of_mem_holders
              (hcons ▸ List.mem_cons_self : binding ∈ _))
          simp [scopeHits_eq, hcons, hcolumns]
        simp only [hcons, List.isEmpty_cons, Bool.not_false, Option.map_some,
          Option.getD_some]
        rcases hlist : scopeHits catalog word scope with _ | ⟨hit, _ | ⟨hit', hits⟩⟩
        · exact absurd hlist hhits
        · rfl
        · rfl

/-! ## What the analysis answers -/

/-- The scopes before the one that decides do not matter. -/
theorem resolveBare_deciding (h : decidingScope catalog word chain = some scope)
    (range : ByteRange) :
    ∃ outer any, resolveBare catalog word range false (chain.map Scope.frame) =
      resolveBare catalog word range any (scope.frame :: outer) := by
  obtain ⟨-, before, after, rfl, hbefore⟩ :=
    List.find?_eq_some_iff_append.1 h
  have hnone : ∀ frame ∈ before.map Scope.frame,
      bareHits catalog word frame = [] := by
    rw [List.forall_mem_map]
    intro inner hinner
    have hnil : columnHolders catalog word inner = [] := by
      simpa using hbefore inner hinner
    rw [bareHits_frame, hnil, List.map_nil]
  rw [List.map_append, List.map_cons, resolveBare_append hnone]
  exact ⟨_, _, rfl⟩

theorem holders_eq_nil (h : decidingScope catalog word chain = none)
    (hscope : scope ∈ chain) : columnHolders catalog word scope = [] := by
  simpa using List.find?_eq_none.1 h scope hscope

/-- The analysis reports the name as an ambiguous column. -/
def AnalysedAmbiguous (catalog : CatalogCache Id) (word : Text)
    (range : ByteRange) (frames : List Frame) : Prop :=
  ∃ d, resolveBare catalog word range false frames = some d ∧
    d.kind = .ambiguousColumn

/-- The analysis resolves the name without a report to a column of a source. -/
def AnalysedSilent (catalog : CatalogCache Id) (word : Text) (range : ByteRange)
    (frames : List Frame) : Prop :=
  resolveBare catalog word range false frames = none ∧
    ∃ frame ∈ frames, ∃ binding ∈ frame.bindings,
      binding.columnHits word catalog ≠ []

theorem not_analysed_of_none (h : decidingScope catalog word chain = none)
    (range : ByteRange) :
    ¬AnalysedAmbiguous catalog word range (chain.map Scope.frame) ∧
      ¬AnalysedSilent catalog word range (chain.map Scope.frame) := by
  have hnone : ∀ frame ∈ chain.map Scope.frame,
      bareHits catalog word frame = [] := by
    rw [List.forall_mem_map]
    intro scope hscope
    rw [bareHits_frame, holders_eq_nil h hscope, List.map_nil]
  constructor
  · rintro ⟨d, hd, hkind⟩
    rw [← List.append_nil (chain.map Scope.frame), resolveBare_append hnone,
      resolveBare] at hd
    split at hd
    · obtain rfl := Option.some.inj hd
      cases hkind
    · cases hd
  · rintro ⟨-, frame, hframe, binding, hbinding, hhits⟩
    exact hhits (bareHits_eq_nil_iff.1 (hnone frame hframe) binding hbinding)

theorem exists_holder (h : decidingScope catalog word chain = some scope) :
    ∃ frame ∈ chain.map Scope.frame, ∃ binding ∈ frame.bindings,
      binding.columnHits word catalog ≠ [] := by
  obtain ⟨binding, rest, hcons⟩ :=
    List.exists_cons_of_ne_nil (columnHolders_ne_nil h)
  have hmem : binding ∈ columnHolders catalog word scope := by
    rw [hcons]
    exact List.mem_cons_self
  exact ⟨scope.frame, List.mem_map_of_mem (List.mem_of_find?_eq_some h),
    binding, (List.mem_filter.1 hmem).1, columnHits_ne_nil_of_mem_holders hmem⟩

/-- One source in the scope that decides has the column. -/
theorem analysed_of_one (h : decidingScope catalog word chain = some scope)
    {binding : Binding} (hone : columnHolders catalog word scope = [binding])
    (range : ByteRange) :
    ¬AnalysedAmbiguous catalog word range (chain.map Scope.frame) ∧
      AnalysedSilent catalog word range (chain.map Scope.frame) := by
  obtain ⟨outer, any, heq⟩ := resolveBare_deciding h range
  have hnone : resolveBare catalog word range any (scope.frame :: outer) =
      none := by
    rw [resolveBare, bareHits_frame, hone]
    rfl
  rw [hnone] at heq
  refine ⟨?_, heq, exists_holder h⟩
  rintro ⟨d, hd, -⟩
  rw [heq] at hd
  cases hd

/-- Several sources in the scope that decides have the column. -/
theorem analysed_of_many (h : decidingScope catalog word chain = some scope)
    {a b : Binding} {rest : List Binding}
    (hmany : columnHolders catalog word scope = a :: b :: rest)
    (range : ByteRange) :
    AnalysedAmbiguous catalog word range (chain.map Scope.frame) ∧
      ¬AnalysedSilent catalog word range (chain.map Scope.frame) := by
  obtain ⟨outer, any, heq⟩ := resolveBare_deciding h range
  have hsome : resolveBare catalog word range any (scope.frame :: outer) =
      some (ambiguity word range
        (a.label :: b.label :: rest.map Binding.label)) := by
    rw [resolveBare, bareHits_frame, hmany]
    rfl
  rw [hsome] at heq
  refine ⟨⟨_, heq, rfl⟩, ?_⟩
  rintro ⟨hnone, -⟩
  rw [heq] at hnone
  cases hnone

/-! ## Agreement -/

/-- Hover reports the name as an ambiguous column. -/
def HoverAmbiguous (catalog : CatalogCache Id) (word : Text)
    (chain : List Scope) : Prop :=
  ∃ hits, Hover.bareAnswer catalog chain word = .ambiguous hits

/-- Hover shows the card of a column. -/
def HoverColumn (catalog : CatalogCache Id) (word : Text)
    (chain : List Scope) : Prop :=
  ∃ binding column, Hover.bareAnswer catalog chain word = .found binding column ∧
    (columnCard catalog column (some binding)).isSome = true

/-- Hover and the analysis say the same of a bare name. -/
structure BareAgreement (catalog : CatalogCache Id) (word : Text)
    (range : ByteRange) (chain : List Scope) : Prop where
  ambiguous : HoverAmbiguous catalog word chain ↔
    AnalysedAmbiguous catalog word range (chain.map Scope.frame)
  column : HoverColumn catalog word chain ↔
    AnalysedSilent catalog word range (chain.map Scope.frame)

/-- Where a single source of the scope that decides has the column, it has it
once, and it is a column there. -/
def ExposedOnce (catalog : CatalogCache Id) (word : Text)
    (chain : List Scope) : Prop :=
  ∀ scope ∈ decidingScope catalog word chain, ∀ binding,
    columnHolders catalog word scope = [binding] →
      ∃ column, binding.columnHits word catalog = [column] ∧
        column.isColumnOf catalog = true

omit [Unicode] in
theorem columnCard_isSome (column : ColumnRef) (owner : Option Binding) :
    (columnCard catalog column owner).isSome = column.isColumnOf catalog := by
  cases column with
  | catalog index =>
      rw [columnCard, ColumnRef.isColumnOf]
      rcases catalog.object index with _ | entry
      · rfl
      · cases entry <;> rfl
  | «local» name dataType => rfl

theorem agreement_of_one (h : decidingScope catalog word chain = some scope)
    {binding : Binding} (hone : columnHolders catalog word scope = [binding])
    (range : ByteRange) :
    BareAgreement catalog word range chain ↔
      ∃ column, binding.columnHits word catalog = [column] ∧
        column.isColumnOf catalog = true := by
  obtain ⟨hnot, hsilent⟩ := analysed_of_one h hone range
  have hanswer : Hover.bareAnswer catalog chain word = BareAnswer.ofHits
      ((binding.columnHits word catalog).map fun column =>
        (binding, column)) := by
    rw [Hover.bareAnswer, h, Option.map_some, Option.getD_some, scopeHits_eq,
      hone, List.flatMap_cons, List.flatMap_nil, List.append_nil]
  constructor
  · rintro ⟨-, hcolumn⟩
    obtain ⟨owner, column, hfound, hcard⟩ := hcolumn.2 hsilent
    rw [hanswer] at hfound
    rcases hhits : binding.columnHits word catalog with
      _ | ⟨first, _ | ⟨second, rest⟩⟩
    · rw [hhits] at hfound
      cases hfound
    · rw [hhits] at hfound
      cases hfound
      exact ⟨_, rfl, (columnCard_isSome _ _).symm.trans hcard⟩
    · rw [hhits] at hfound
      cases hfound
  · rintro ⟨column, hhits, hcolumn⟩
    rw [hhits] at hanswer
    refine ⟨iff_of_false ?_ hnot, iff_of_true ?_ hsilent⟩
    · rintro ⟨hits, hambiguous⟩
      rw [hanswer] at hambiguous
      cases hambiguous
    · exact ⟨binding, column, hanswer, (columnCard_isSome column _).trans hcolumn⟩

theorem agreement_of_many (h : decidingScope catalog word chain = some scope)
    {a b : Binding} {rest : List Binding}
    (hmany : columnHolders catalog word scope = a :: b :: rest)
    (range : ByteRange) : BareAgreement catalog word range chain := by
  obtain ⟨hambiguous, hnot⟩ := analysed_of_many h hmany range
  have hholds : ∀ binding ∈ [a, b],
      ∃ first others, binding.columnHits word catalog = first :: others := by
    intro binding hbinding
    have hmem : binding ∈ columnHolders catalog word scope := by
      rw [hmany]
      rcases List.mem_cons.1 hbinding with rfl | hbinding
      · exact List.mem_cons_self
      · rw [List.mem_singleton.1 hbinding]
        exact List.mem_cons_of_mem _ List.mem_cons_self
    apply List.exists_cons_of_ne_nil
    exact columnHits_ne_nil_of_mem_holders hmem
  obtain ⟨c, cs, hc⟩ := hholds a (by simp)
  obtain ⟨d, ds, hd⟩ := hholds b (by simp)
  have hanswer : ∃ hits, Hover.bareAnswer catalog chain word =
      .ambiguous hits := by
    rw [Hover.bareAnswer, h, Option.map_some, Option.getD_some, scopeHits_eq,
      hmany, List.flatMap_cons, List.flatMap_cons, hc, hd]
    cases cs with
    | nil => exact ⟨_, rfl⟩
    | cons e es => exact ⟨_, rfl⟩
  obtain ⟨hits, hhits⟩ := hanswer
  refine ⟨iff_of_true ⟨hits, hhits⟩ hambiguous, iff_of_false ?_ hnot⟩
  rintro ⟨owner, column, hfound, -⟩
  rw [hhits] at hfound
  cases hfound

/-- Hover and the analysis agree on a bare name, unless the only source that the
deciding scope has it from has it more than once. -/
theorem bareAgreement_iff (catalog : CatalogCache Id) (word : Text)
    (range : ByteRange) (chain : List Scope) :
    BareAgreement catalog word range chain ↔ ExposedOnce catalog word chain := by
  cases h : decidingScope catalog word chain with
  | none =>
      obtain ⟨hambiguous, hsilent⟩ := not_analysed_of_none h range
      have hother : Hover.bareAnswer catalog chain word = .other := by
        rw [Hover.bareAnswer, h]
        rfl
      refine iff_of_true ⟨iff_of_false ?_ hambiguous, iff_of_false ?_ hsilent⟩ ?_
      · rintro ⟨hits, hhits⟩
        rw [hother] at hhits
        cases hhits
      · rintro ⟨binding, column, hfound, -⟩
        rw [hother] at hfound
        cases hfound
      · intro scope hscope
        rw [h] at hscope
        cases hscope
  | some scope =>
      simp only [ExposedOnce, h, Option.mem_def, Option.some.injEq, forall_eq']
      rcases hholders : columnHolders catalog word scope with
        _ | ⟨a, _ | ⟨b, rest⟩⟩
      · exact absurd hholders (columnHolders_ne_nil h)
      · rw [agreement_of_one h hholders range]
        simp only [List.cons.injEq, and_true, forall_eq']
      · refine iff_of_true (agreement_of_many h hholders range) ?_
        intro binding hbinding
        cases hbinding

end

/-! ## A subquery that has a column twice -/

section Sample

local instance asciiBareHover : Unicode := Unicode.ascii

/-- `select id from (select id, id from users) t` -/
def twiceExposed : Node :=
  .node (.other "program") 0 43
    [.node .statement 0 43
      [.node .select 0 9
        [.leaf (.keyword "select") 0 6,
          .node .selectExpression 7 9
            [.node .term 7 9
              [.node .field 7 9 [.leaf .identifier 7 9]]]],
        .node .fromClause 10 43
          [.leaf (.keyword "from") 10 14,
            .node .relation 15 43
              [.node .subquery 15 41
                [.leaf .openParen 15 16,
                  .node .select 16 29
                    [.leaf (.keyword "select") 16 22,
                      .node .selectExpression 23 29
                        [.node .term 23 25
                          [.node .field 23 25 [.leaf .identifier 23 25]],
                          .leaf .comma 25 26,
                          .node .term 27 29
                            [.node .field 27 29 [.leaf .identifier 27 29]]]],
                  .node .fromClause 30 40
                    [.leaf (.keyword "from") 30 34,
                      .node .relation 35 40
                        [.node .objectReference 35 40
                          [.leaf .identifier 35 40]]],
                  .leaf .closeParen 40 41],
                .leaf .identifier 42 43]]]]

def twiceText : Text :=
  "select id from (select id, id from users) t".toList

/-- The scopes around the first `id`, as the analysis leaves them. -/
def twiceChain : List Scope :=
  ((Walker.analyzeNow ⟨twiceText, usersCatalog⟩ twiceExposed).scopeChain
    8).reverse

/-- The source `t`. -/
def twiceBinding : Binding where
  «alias» := some "t".toList
  name := none
  schema := none
  object := none
  columns := [.local "id".toList none, .local "id".toList none]
  range := ⟨15, 43⟩

/-- Hover calls `id` ambiguous, the analysis resolves it. -/
theorem twiceExposed_disagrees :
    HoverAmbiguous usersCatalog "id".toList twiceChain ∧
      AnalysedSilent usersCatalog "id".toList ⟨7, 9⟩
        (twiceChain.map Scope.frame) ∧
      ¬BareAgreement usersCatalog "id".toList ⟨7, 9⟩ twiceChain := by
  have hanswer : Hover.bareAnswer usersCatalog twiceChain "id".toList =
      .ambiguous (twiceBinding.columns.map fun column =>
        (twiceBinding, column)) := by
    decide +kernel
  have hsilent : AnalysedSilent usersCatalog "id".toList ⟨7, 9⟩
      (twiceChain.map Scope.frame) := by
    refine ⟨by decide +kernel, ?_⟩
    decide +kernel
  refine ⟨⟨_, hanswer⟩, hsilent, fun h => ?_⟩
  obtain ⟨d, hd, -⟩ := h.ambiguous.1 ⟨_, hanswer⟩
  rw [hsilent.1] at hd
  cases hd

end Sample

end Tempr.Intel
