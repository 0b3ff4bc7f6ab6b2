import Tempr.Intel.Engine
import Tempr.Intel.Hover

/-!
# Completion and hover requests

Both read the analysis that the engine has cached for the text, or else one of
only the statements that matter at the cursor. They get the same scopes of
either, so that their answers do not tell which one it was.
-/

namespace Tempr.Intel

open Tempr.Support Tempr.Services
open Tempr.Editor (ByteRange Rope Buffer)
open Tempr.Editor.Rope (lenBytes)

/-! ## The scopes at the cursor -/

def Scope.frame (scope : Scope) : Frame :=
  ⟨scope.ctes, scope.bindings⟩

/-- Does a scope begin at the offset or before? -/
def Scope.startsBefore (offset : ℕ) (scope : Scope) : Bool :=
  decide (scope.range.start ≤ offset)

namespace Analysis

/-- The last statement that begins at the offset or before. -/
def lastBefore (analysis : Analysis) (offset : ℕ) : Option Scope :=
  analysis.scopes.reverse.find? (Scope.startsBefore offset)

/-- Where the statement at the cursor starts. -/
def statementStart (analysis : Analysis) (offset : ℕ) : ℕ :=
  ((analysis.lastBefore offset).map fun scope => scope.range.start).getD 0

end Analysis

/-- Is there a statement separator between the end of a statement and the
cursor? -/
def trailsAStatement (buffer : Buffer) (stop offset : ℕ) : Bool :=
  let stop := min (min stop offset) buffer.len
  match buffer.slice ⟨stop, offset⟩ with
  | .ok text => text.contains ';'
  | .error _ => true

/-- The scopes visible at the cursor, innermost first. If they have no sources,
the last statement before the cursor is taken, unless a separator follows it. -/
def frameChain (analysis : Analysis) (buffer : Buffer) (offset : ℕ) :
    List Scope :=
  let chain := (analysis.scopeChain offset).reverse
  if chain.all fun scope => scope.bindings.isEmpty && scope.ctes.isEmpty then
    match analysis.lastBefore offset with
    | some scope =>
        if trailsAStatement buffer scope.range.stop offset then chain
        else [scope]
    | none => chain
  else chain

/-! ## Requests -/

section Requests

variable {Id : Type} [DecidableEq Id] [Unicode] [CharTables]

def CompletionContext.isQualifier : CompletionContext → Bool
  | .qualifier _ => true
  | _ => false

omit [DecidableEq Id] in
/-- The items at the cursor. Without an explicit request there are none before
something has been typed. -/
def completeWith (order : HashOrder) (catalog : CatalogCache Id)
    (analysis : Analysis) (buffer : Buffer) (offset : ℕ) (explicit : Bool) :
    Option (List CompletionItem) := do
  let frames := (frameChain analysis buffer offset).map Scope.frame
  let start := analysis.statementStart offset
  let before := ((buffer.slice ⟨start, offset⟩).toOption).getD []
  let cursor ← cursorContext before start
  if !explicit && cursor.typed.isEmpty && !cursor.context.isQualifier then
    return []
  if cursor.context = .alias then return []
  return rank order (generate catalog frames cursor) cursor.typed cursor.word

omit [CharTables] in
/-- The analysis for one offset of a text. -/
def regionAnalysisOf (parse : Text → Option Node) (text : Text)
    (catalog : CatalogCache Id) (offset : ℕ) : Analysis :=
  match parse text with
  | some root => Walker.analyzeRegionNow ⟨text, catalog⟩ root offset
  | none => .empty

structure HoverInfo where
  contents : Text
  range : ByteRange
  deriving DecidableEq, Repr

omit [DecidableEq Id] in
/-- The card for the reference under the cursor. -/
def hoverWith (catalog : CatalogCache Id) (analysis : Analysis)
    (buffer : Buffer) (offset : ℕ) : Option (Option HoverInfo) := do
  match ← referenceAt buffer.rope offset with
  | none => return none
  | some reference =>
      return (Hover.resolve catalog analysis offset reference).map
        (⟨·, reference.range⟩)

namespace SemanticEngine

variable (catalogs : CatalogAddress → CatalogCache Id)
  (parse : Text → Option Node) (engine : SemanticEngine) (file : SqlFileId)
  (buffer : Buffer)

omit [CharTables] in
/-- The analysis that a request reads: the one that is cached, or else one for
the offset. -/
def analyzedAt (offset : ℕ) : Analysis :=
  (engine.lookup file buffer.revision engine.catalog).getD
    (regionAnalysisOf parse buffer.rope (catalogs engine.catalog) offset)

def complete (order : HashOrder) (offset : ℕ) (explicit : Bool) :
    Option (List CompletionItem) :=
  let offset := min offset buffer.len
  completeWith order (catalogs engine.catalog)
    (engine.analyzedAt catalogs parse file buffer offset) buffer offset explicit

def hover (offset : ℕ) : Option (Option HoverInfo) :=
  let offset := min offset buffer.len
  hoverWith (catalogs engine.catalog)
    (engine.analyzedAt catalogs parse file buffer offset) buffer offset

omit [CharTables] in
/-- What the engine has cached for the revision of the buffer, if anything, is
the full analysis of its text. -/
def CachesFull : Prop :=
  ∀ analysis ∈ engine.lookup file buffer.revision engine.catalog,
    analysis = analysisOf parse buffer.rope (catalogs engine.catalog)

end SemanticEngine

end Requests

/-! ## Elements that are kept -/

section Keep

variable {α : Type*} {p q : α → Bool} {l : List α}

/-- The elements in `p`, and the last one in `q`. -/
def keep (p q : α → Bool) (l : List α) : List α :=
  let last := l.zipIdx.reverse.find? fun x => q x.1
  (l.zipIdx.filter fun x =>
    p x.1 || decide (last.map Prod.snd = some x.2)).map Prod.fst

theorem filter_keep : (keep p q l).filter p = l.filter p := by
  have hfst : l = l.zipIdx.map Prod.fst := (List.zipIdx_map_fst 0 l).symm
  rw [keep, List.filter_map, List.filter_filter]
  conv_rhs => rw [hfst, List.filter_map]
  congr 1
  apply List.filter_congr
  intro x _
  simp only [Function.comp]
  cases p x.1 <;> rfl

theorem getLast?_filter_of_last {l : List α}
    (h : ∀ x, l.getLast? = some x → p x = true) :
    (l.filter p).getLast? = l.getLast? := by
  rcases List.eq_nil_or_concat l with rfl | ⟨before, last, rfl⟩
  · rfl
  · have hlast : p last = true := h last (by simp)
    rw [List.concat_eq_append, List.filter_append, List.filter_singleton, hlast]
    simp

/-- The last element in `q` is kept last. -/
theorem getLast?_filter_keep :
    ((keep p q l).filter q).getLast? = (l.filter q).getLast? := by
  have hfst : l = l.zipIdx.map Prod.fst := (List.zipIdx_map_fst 0 l).symm
  rw [keep, ← List.getLast?_filter, List.filter_map, List.filter_filter]
  conv_rhs => rw [hfst, List.filter_map, List.getLast?_map,
    ← getLast?_filter_of_last (p := fun x => p x.1 ||
      decide ((((l.zipIdx.filter fun x => q x.1).getLast?).map Prod.snd)
        = some x.2))
      (by
        intro x hx
        rw [Bool.or_eq_true, decide_eq_true_eq]
        exact .inr (congrArg (Option.map Prod.snd) hx))]
  rw [List.getLast?_map, List.filter_filter]
  congr 2
  apply List.filter_congr
  intro x _
  exact Bool.and_comm _ _

theorem keep_map {β : Type*} (f : β → α) (l : List β) :
    keep p q (l.map f) = (keep (p ∘ f) (q ∘ f) l).map f := by
  have hlast : (((l.map f).zipIdx.reverse.find? fun x => q x.1).map
      Prod.snd) = (l.zipIdx.reverse.find? fun x => q (f x.1)).map Prod.snd := by
    rw [List.zipIdx_map, ← List.map_reverse, List.find?_map, Option.map_map]
    rfl
  simp only [keep, hlast]
  rw [List.zipIdx_map, List.filter_map, List.map_map, List.map_map]
  rfl

end Keep

/-! ## The scopes that an offset selects -/

theorem descend_eq (offset : ℕ) (scopes : List Scope) :
    Scope.descend offset scopes =
      ((scopes.filter fun scope => scope.contains offset).getLast?).map
        (Scope.chain offset) := by
  induction scopes with
  | nil => rfl
  | cons scope scopes ih =>
      rw [Scope.descend, ih, List.filter_cons]
      cases hlast : (scopes.filter fun scope =>
          scope.contains offset).getLast? with
      | some found =>
          simp only [Option.map_some]
          split
          · rw [List.getLast?_cons, hlast]
            rfl
          · rw [hlast]
            rfl
      | none =>
          rw [List.getLast?_eq_none_iff.1 hlast, Option.map_none]
          simp only
          split <;> rfl

theorem lastBefore_eq (analysis : Analysis) (offset : ℕ) :
    analysis.lastBefore offset =
      (analysis.scopes.filter (Scope.startsBefore offset)).getLast? := by
  rw [Analysis.lastBefore, List.getLast?_filter]

/-! ## The statements at an offset -/

section Regions

variable {Id : Type} [DecidableEq Id] [Unicode]

theorem walkRegion_range (w : Walker Id) (region : Node) (outer : List Level) :
    (w.walkRegion region outer).scope.range = Node.range region := by
  rw [Walker.walkRegion_eq]
  by_cases herror : region.kind = .error
  · rw [Walker.walkRegionWith_error w herror]
  · by_cases hsides : region.hasSides
    · rw [Walker.walkRegionWith_sides w herror hsides]
      rfl
    · rw [Walker.walkRegionWith_parts w herror hsides]
      rfl

/-- The scopes of the statements at the offset are those of all statements that
contain it, and of the last one before it. -/
theorem scopes_region_eq (w : Walker Id) (root : Node) (offset : ℕ) :
    (w.analyzeRegionNow root offset).scopes =
      keep (fun scope => scope.contains offset) (Scope.startsBefore offset)
        (w.analyzeNow root).scopes := by
  have hstatements : Walker.statementsAt root offset =
      keep (fun region => decide (SpanTree.start region ≤ offset ∧
          offset ≤ SpanTree.stop region))
        (fun region => decide (SpanTree.start region ≤ offset))
        (Walker.statements root) := rfl
  have hcontains : ∀ region : Node,
      (w.walkRegion region []).scope.contains offset =
        decide (SpanTree.start region ≤ offset ∧
          offset ≤ SpanTree.stop region) := by
    intro region
    rw [Scope.contains, walkRegion_range]
    rfl
  have hbefore : ∀ region : Node,
      Scope.startsBefore offset (w.walkRegion region []).scope =
        decide (SpanTree.start region ≤ offset) := by
    intro region
    rw [Scope.startsBefore, walkRegion_range]
    rfl
  rw [Walker.analyzeRegionNow, Walker.analyzeNow, hstatements, keep_map]
  simp only [Function.comp_def, hcontains, hbefore]

variable {w : Walker Id} {root : Node} {offset : ℕ}

theorem scopeChain_region_eq :
    (w.analyzeRegionNow root offset).scopeChain offset =
      (w.analyzeNow root).scopeChain offset := by
  rw [Analysis.scopeChain, descend_eq, scopes_region_eq, filter_keep,
    ← descend_eq]
  rfl

theorem lastBefore_region_eq :
    (w.analyzeRegionNow root offset).lastBefore offset =
      (w.analyzeNow root).lastBefore offset := by
  rw [lastBefore_eq, lastBefore_eq, scopes_region_eq, getLast?_filter_keep]

/-! ## Agreement -/

/-- Two analyses tell the same at an offset. -/
structure Analysis.AgreeAt (offset : ℕ) (a b : Analysis) : Prop where
  scopeChain : a.scopeChain offset = b.scopeChain offset
  lastBefore : a.lastBefore offset = b.lastBefore offset

theorem agreeAt_regionAnalysisOf (parse : Text → Option Node) (text : Text)
    (catalog : CatalogCache Id) (offset : ℕ) :
    (regionAnalysisOf parse text catalog offset).AgreeAt offset
      (analysisOf parse text catalog) := by
  rw [regionAnalysisOf, analysisOf]
  cases parse text with
  | none => exact ⟨rfl, rfl⟩
  | some root => exact ⟨scopeChain_region_eq, lastBefore_region_eq⟩

namespace Analysis.AgreeAt

variable {a b : Analysis} (h : a.AgreeAt offset b)
include h

omit [Unicode] in
theorem statementStart : a.statementStart offset = b.statementStart offset := by
  rw [Analysis.statementStart, h.lastBefore, ← Analysis.statementStart]

omit [Unicode] in
theorem frameChain (buffer : Buffer) :
    frameChain a buffer offset = frameChain b buffer offset := by
  rw [Intel.frameChain, h.scopeChain, h.lastBefore, ← Intel.frameChain]

omit [DecidableEq Id] in
theorem hoverWith [CharTables] (catalog : CatalogCache Id) (buffer : Buffer) :
    hoverWith catalog a buffer offset = hoverWith catalog b buffer offset := by
  have hresolve : ∀ reference, Hover.resolve catalog a offset reference =
      Hover.resolve catalog b offset reference := by
    intro reference
    rw [Hover.resolve, h.scopeChain, ← Hover.resolve]
  simp only [Intel.hoverWith, hresolve]

omit [DecidableEq Id] in
/-- The items depend on the scopes at the cursor alone, and not on the order of
the hash map. -/
theorem completeWith [CharTables] (order order' : HashOrder)
    (catalog : CatalogCache Id) (buffer : Buffer) (explicit : Bool) :
    completeWith order catalog a buffer offset explicit =
      completeWith order' catalog b buffer offset explicit := by
  have hrank : ∀ (frames : List Frame) (cursor : CursorContext),
      rank order (generate catalog frames cursor) cursor.typed cursor.word =
        rank order' (generate catalog frames cursor) cursor.typed
          cursor.word := by
    intro frames cursor
    apply rank_eq_rank
    intro x hx y hy _ hweight
    calc x.kind = kindOfWeight x.weight := generate_weightTellsKind hx
      _ = kindOfWeight y.weight := by rw [hweight]
      _ = y.kind := (generate_weightTellsKind hy).symm
  simp only [Intel.completeWith, h.frameChain, h.statementStart, hrank]

end Analysis.AgreeAt

section Requests

variable [CharTables] (catalogs : CatalogAddress → CatalogCache Id)
  (parse : Text → Option Node) (engine : SemanticEngine) (file : SqlFileId)
  (buffer : Buffer) (order order' : HashOrder)

omit [CharTables] in
/-- The analysis that a request reads agrees with the full one. -/
theorem agreeAt_analyzedAt
    (hcached : engine.CachesFull catalogs parse file buffer) (offset : ℕ) :
    (engine.analyzedAt catalogs parse file buffer offset).AgreeAt offset
      (analysisOf parse buffer.rope (catalogs engine.catalog)) := by
  rw [SemanticEngine.analyzedAt]
  cases hlookup : engine.lookup file buffer.revision engine.catalog with
  | none => exact agreeAt_regionAnalysisOf parse _ _ offset
  | some analysis =>
      rw [Option.getD_some, hcached analysis hlookup]
      exact ⟨rfl, rfl⟩

/-- Completion and hover answer as on the full analysis of the text, whatever the
engine has cached; and what they read of the analysis for an offset is what they
would read of the full one. -/
theorem requests_eq_full
    (hcached : engine.CachesFull catalogs parse file buffer) :
    (∀ offset explicit,
      engine.complete catalogs parse file buffer order offset explicit =
        completeWith order' (catalogs engine.catalog)
          (analysisOf parse buffer.rope (catalogs engine.catalog)) buffer
          (min offset buffer.len) explicit) ∧
    (∀ offset,
      engine.hover catalogs parse file buffer offset =
        hoverWith (catalogs engine.catalog)
          (analysisOf parse buffer.rope (catalogs engine.catalog)) buffer
          (min offset buffer.len)) ∧
    ∀ (catalog : CatalogCache Id) (offset : ℕ),
      (regionAnalysisOf parse buffer.rope catalog offset).scopeChain offset =
          (analysisOf parse buffer.rope catalog).scopeChain offset ∧
        frameChain (regionAnalysisOf parse buffer.rope catalog offset) buffer
            offset =
          frameChain (analysisOf parse buffer.rope catalog) buffer offset ∧
        (regionAnalysisOf parse buffer.rope catalog offset).statementStart
            offset =
          (analysisOf parse buffer.rope catalog).statementStart offset := by
  refine ⟨?_, ?_, ?_⟩
  · intro offset explicit
    exact (agreeAt_analyzedAt catalogs parse engine file buffer hcached
      _).completeWith order order' _ buffer explicit
  · intro offset
    exact (agreeAt_analyzedAt catalogs parse engine file buffer hcached
      _).hoverWith _ buffer
  · intro catalog offset
    have h := agreeAt_regionAnalysisOf parse buffer.rope catalog offset
    exact ⟨h.scopeChain, h.frameChain buffer, h.statementStart⟩

end Requests

end Regions

section Sample

local instance asciiRequests : Unicode := Unicode.ascii

local instance tablesRequests : CharTables := CharTables.ascii

/-- `select id from users; select x from users, nosuch` -/
def twoQueries : Node :=
  .node (.other "program") 0 49
    [.node .statement 0 20
      [.node .select 0 9
        [.leaf (.keyword "select") 0 6,
          .node .selectExpression 7 9
            [.node .term 7 9
              [.node .field 7 9 [.leaf .identifier 7 9]]]],
        .node .fromClause 10 20
          [.leaf (.keyword "from") 10 14,
            .node .relation 15 20
              [.node .objectReference 15 20 [.leaf .identifier 15 20]]]],
      .leaf .semicolon 20 21,
      .node .statement 22 49
        [.node .select 22 30
          [.leaf (.keyword "select") 22 28,
            .node .selectExpression 29 30
              [.node .term 29 30
                [.node .field 29 30 [.leaf .identifier 29 30]]]],
          .node .fromClause 31 49
            [.leaf (.keyword "from") 31 35,
              .node .relation 36 41
                [.node .objectReference 36 41 [.leaf .identifier 36 41]],
              .leaf .comma 41 42,
              .node .relation 43 49
                [.node .objectReference 43 49 [.leaf .identifier 43 49]]]]]

def twoQueriesText : Text :=
  "select id from users; select x from users, nosuch".toList

def twoQueriesBuffer : Buffer := .new 1 twoQueriesText

/-- An engine that has cached nothing. -/
def freshEngine : SemanticEngine := ⟨0, ∅⟩

/-- An engine that has cached the full analysis. -/
def cachedEngine : SemanticEngine :=
  freshEngine.insert ⟨"f"⟩ ⟨"f"⟩
    ⟨1, 0, analysisOf (fun _ => some twoQueries) twoQueriesText usersCatalog⟩

/-- Behind the second `select x` the items are the same, with any orders of the
hash map, though the analysis for the offset lacks the first statement. -/
theorem requests_eq_full_two_queries :
    (analysisOf (fun _ => some twoQueries) twoQueriesText
        usersCatalog).scopes.map (·.range) = [⟨0, 20⟩, ⟨22, 49⟩] ∧
      (regionAnalysisOf (fun _ => some twoQueries) twoQueriesText
        usersCatalog 30).scopes.map (·.range) = [⟨22, 49⟩] ∧
      cachedEngine.complete (fun _ => usersCatalog)
          (fun _ => some twoQueries) ⟨"f"⟩ twoQueriesBuffer
          ⟨id, List.Perm.refl⟩ 30 false =
        freshEngine.complete (fun _ => usersCatalog)
          (fun _ => some twoQueries) ⟨"f"⟩ twoQueriesBuffer
          ⟨List.reverse, List.reverse_perm⟩ 30 false := by
  have hcached : cachedEngine.CachesFull (fun _ => usersCatalog)
      (fun _ => some twoQueries) ⟨"f"⟩ twoQueriesBuffer := by
    intro analysis hanalysis
    exact (Option.some.inj hanalysis).symm
  have hfresh : freshEngine.CachesFull (fun _ => usersCatalog)
      (fun _ => some twoQueries) ⟨"f"⟩ twoQueriesBuffer := by
    intro analysis hanalysis
    cases hanalysis
  refine ⟨by decide +kernel, by decide +kernel, ?_⟩
  rw [(requests_eq_full _ _ _ _ _ _ ⟨id, List.Perm.refl⟩ hcached).1 30 false,
    (requests_eq_full _ _ _ _ _ _ ⟨id, List.Perm.refl⟩ hfresh).1 30 false]

end Sample

end Tempr.Intel
