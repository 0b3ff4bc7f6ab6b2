import Mathlib.Data.Prod.Lex
import Tempr.Support.TopN
import Tempr.Intel.ColumnCompletion
import Tempr.Intel.Lexer

/-!
# Completion

The candidates for what the cursor position expects, from the sources that are
visible there and the catalog; their scores; and the best of them.

The best candidates of each label and kind are collected in a hash map, and go
on in the order in which the map lists them. That order is a parameter; it turns
out not to matter.
-/

namespace Tempr.Intel

open Tempr.Support
open Tempr.Editor (ByteRange Rope)

/-! ## Weights -/

/-- How many items are shown. -/
def completionLimit : ℕ := 200

/-- How many names of the catalog are looked at. -/
def prefixScanCap : ℕ := 200

def weightCte : ℤ := 470

def weightRelation : ℤ := 450

def weightStatementKeyword : ℤ := 400

def weightFunction : ℤ := 300

def weightRelationExpression : ℤ := 250

def weightSchema : ℤ := 200

def weightAlias : ℤ := 150

def weightKeyword : ℤ := 100

/-- The weights that candidates are generated with. -/
def generatorWeights : List ℤ :=
  [weightColumn, weightColumnQualified, weightCte, weightRelation,
    weightStatementKeyword, weightFunction, weightRelationExpression, weightSchema,
    weightAlias, weightKeyword]

/-- What statements begin with. -/
def statementKeywords : List String :=
  ["SELECT", "INSERT", "UPDATE", "DELETE", "WITH", "CREATE", "ALTER", "DROP",
    "TRUNCATE", "EXPLAIN", "ANALYZE", "VACUUM", "REINDEX", "CLUSTER",
    "REFRESH", "COMMENT", "GRANT", "REVOKE", "COPY", "BEGIN", "START", "COMMIT",
    "ROLLBACK", "SAVEPOINT", "SET", "SHOW", "RESET", "LISTEN", "NOTIFY",
    "UNLISTEN", "PREPARE", "EXECUTE", "DEALLOCATE", "LOCK", "CALL", "DO",
    "DECLARE", "FETCH", "MOVE", "CLOSE"]

section Catalog

variable {Id : Type} [Unicode]

/-- The relations and functions whose folded names begin with the folded prefix,
at most `cap` of them, and whether there are more. -/
def CatalogCache.prefixSearch (catalog : CatalogCache Id) (typed : Text)
    (cap : ℕ) : List ℕ × Bool :=
  let folded := toLowercase typed
  let found := (catalog.nameOrder.dropWhile fun p => p.1 < folded).takeWhile
    fun p => folded.isPrefixOf p.1
  ((found.take cap).map Prod.snd, decide (cap < found.length))

/-- The relations of a schema, by their folded names. -/
def CatalogCache.relationsInSchema (catalog : CatalogCache Id) (schema : Text) :
    List ℕ :=
  let found := (catalog.relationsByFoldedName.entries.filter fun entry =>
      entry.1.1 = toLowercase schema).flatMap fun entry =>
    entry.2.map fun idx => (entry.1.2, idx)
  (found.insertionSort fun a b => a.1 < b.1 ∨ a.1 = b.1 ∧ a.2 ≤ b.2).map
    Prod.snd

end Catalog

/-! ## Candidates -/

section Generate

variable {Id : Type} [Unicode] [CharTables]

def keywordCandidate (weight : ℤ) (keyword : Text) : Candidate where
  label := toUppercase keyword
  insert := toUppercase keyword
  kind := .keyword
  detail := []
  weight := weight

/-- The keywords of the server, or else a list of common ones. -/
def keywordCandidates (catalog : CatalogCache Id) : List Candidate :=
  (if catalog.keywords.isEmpty then fallbackKeywords.map String.toList
    else catalog.keywords).map (keywordCandidate weightKeyword)

def statementKeywordCandidates : List Candidate :=
  (statementKeywords.map String.toList).map
    (keywordCandidate weightStatementKeyword)

def cteCandidates (frames : List Frame) : List Candidate :=
  (frames.flatMap Frame.ctes).filterMap fun cte =>
    cte.name.map fun name =>
      { label := name, insert := quoteIdent name, kind := .cte
        detail := "cte · ".toList ++ (Nat.repr cte.columns.length).toList
          ++ " columns".toList
        weight := weightCte }

/-- A candidate for a table or view of the catalog. -/
def relationCandidate (weight : ℤ) : CatalogEntry Id → Option Candidate
  | .table _ schema name _ =>
      some
        { label := name, insert := quoteIdent name, kind := .table
          detail := "table · ".toList ++ schema, weight }
  | .view _ schema name _ =>
      some
        { label := name, insert := quoteIdent name, kind := .table
          detail := "view · ".toList ++ schema, weight }
  | _ => none

def relationCandidates (catalog : CatalogCache Id) (typed : Text)
    (weight : ℤ) : List Candidate :=
  (catalog.prefixSearch typed prefixScanCap).1.filterMap fun index =>
    (catalog.object index).bind (relationCandidate weight)

def functionCandidate : CatalogEntry Id → Option Candidate
  | .function _ _ name parameters returnType _ =>
      some
        { label := name, insert := quoteIdent name, kind := .function
          detail := "(".toList
            ++ ", ".toList.intercalate
              (parameters.map fun p => p.1 ++ " ".toList ++ p.2)
            ++ ") → ".toList ++ returnType
          weight := weightFunction }
  | _ => none

def functionCandidates (catalog : CatalogCache Id) (typed : Text) :
    List Candidate :=
  (catalog.prefixSearch typed prefixScanCap).1.filterMap fun index =>
    (catalog.object index).bind functionCandidate

def schemaCandidates (catalog : CatalogCache Id) : List Candidate :=
  catalog.schemas.map fun schema =>
    { label := schema, insert := quoteIdent schema, kind := .schema
      detail := "schema".toList, weight := weightSchema }

def aliasCandidates (frames : List Frame) : List Candidate :=
  (visibleBindings frames).filterMap fun binding =>
    binding.alias.map fun own =>
      { label := own, insert := quoteIdent own, kind := .alias
        detail := "alias".toList, weight := weightAlias }

/-- The candidate for a column that has been named by its source. -/
def ownedColumnCandidate (owner : Option Text) (info : Text × Option Text) :
    Candidate where
  label := info.1
  insert := quoteIdent info.1
  kind := .column
  detail := columnDetail info.2 owner
  weight := weightColumn

/-- The columns of the source that answers the qualifier. -/
def bindingColumns (catalog : CatalogCache Id) (binding : Binding) :
    List Candidate :=
  (binding.columns.filterMap (columnInfo catalog)).map
    (ownedColumnCandidate (bindingQualifier binding))

/-- The columns of a relation that is named with its schema. -/
def catalogColumnCandidates (catalog : CatalogCache Id) (owner : Text)
    (relation : ℕ) : List Candidate :=
  (catalog.columnsOf relation).filterMap fun entry =>
    match entry with
    | .column _ _ name dataType nullable _ _ =>
        some (ownedColumnCandidate (some owner)
          (name, some (columnType dataType nullable)))
    | _ => none

/-- A relation that follows the dot of its schema. -/
def schemaRelationCandidate (schema : Text) (entry : CatalogEntry Id) :
    Candidate where
  label := entry.name
  insert := quoteIdent entry.name
  kind := .table
  detail :=
    (match entry with
      | .view _ _ _ _ => "view".toList
      | _ => "table".toList) ++ " · ".toList ++ schema
  weight := weightRelation

/-- The candidates after a qualifier of one part. A source without columns that
is no relation of the catalog leaves them to a schema of its name. -/
def qualifiedCandidates (catalog : CatalogCache Id) (frames : List Frame)
    (last : Text) : List Candidate :=
  match (lookupQualifier frames last).filter fun binding =>
      !binding.columns.isEmpty || binding.object.isSome with
  | some binding => bindingColumns catalog binding
  | none =>
      if catalog.schemas.any fun schema =>
          decide (toLowercase schema = toLowercase last) then
        (catalog.relationsInSchema last).filterMap fun index =>
          (catalog.object index).map (schemaRelationCandidate last)
      else []

/-- The candidates after the dot of a qualifier. -/
def qualifierCandidates (catalog : CatalogCache Id) (frames : List Frame)
    (parts : List Text) : List Candidate :=
  match parts.reverse with
  | [] => []
  | [last] => qualifiedCandidates catalog frames last
  | last :: schema :: _ =>
      let relations :=
        match catalog.relationFolded schema last with
        | [] => (catalog.relationExact schema last).toList
        | relations => relations
      relations.flatMap (catalogColumnCandidates catalog last)

/-- The candidates at the cursor. Without a catalog only keywords are offered. -/
def generate (catalog : CatalogCache Id) (frames : List Frame)
    (cursor : CursorContext) : List Candidate :=
  if catalog.isEmpty then keywordCandidates catalog
  else
    match cursor.context with
    | .statementStart => statementKeywordCandidates
    | .relation =>
        cteCandidates frames
          ++ relationCandidates catalog cursor.typed weightRelation
          ++ schemaCandidates catalog
    | .expression =>
        columns catalog frames
          ++ relationCandidates catalog cursor.typed weightRelationExpression
          ++ functionCandidates catalog cursor.typed
          ++ keywordCandidates catalog ++ aliasCandidates frames
    | .alias => []
    | .qualifier parts => qualifierCandidates catalog frames parts

end Generate

/-! ## Matching -/

section Fuzzy

variable [CharTables]

/-- Are two characters equal but for their case? -/
def sameLetter (c q : Char) : Bool :=
  decide (c.toLower = q.toLower)
    || decide (lowercaseChar c = lowercaseChar q)

/-- A character of the candidate that matches one of the query. -/
structure Hit where
  index : ℕ
  char : Char
  /-- how many characters have been passed since the last one -/
  gap : ℕ
  /-- the character before -/
  previous : Option Char
  /-- what follows -/
  rest : List Char

/-- The next character that matches `q`, from the offset `index` on. -/
def findHit (q : Char) (index gap : ℕ) (previous : Option Char) :
    List Char → Option Hit
  | [] => none
  | c :: rest =>
      if sameLetter c q then some ⟨index, c, gap, previous, rest⟩
      else findHit q (index + c.utf8Size) (gap + 1) (some c) rest

/-- Does a word start at the hit? -/
def Hit.isWordStart (hit : Hit) (matchedBefore : Bool) : Bool :=
  match hit.previous with
  | none => decide (hit.index = 0) || !matchedBefore
  | some previous =>
      !(isAlphabetic previous || isNumeric previous)
        || isLowercase previous && isUppercase hit.char

/-- What one hit scores. `matchedAt` is the index of the last one. -/
def Hit.score (candidate : Text) (q : Char) (matchedAt : Option ℕ)
    (hit : Hit) : ℤ :=
  let consecutive := matchedAt.any fun p =>
    decide ((Rope.byteSlice candidate p hit.index).length = 1)
  1 + (if hit.char = q then 1 else 0) + (if consecutive then 10 else 0)
    + (if hit.isWordStart matchedAt.isSome && !consecutive then 6 else 0)
    - hit.gap

structure FuzzyMatch where
  score : ℤ
  indices : List ℕ
  deriving DecidableEq, Repr

/-- Match what is left of the query against what is left of the candidate. -/
def fuzzyMatchFrom (candidate : Text) (index : ℕ) (matchedAt : Option ℕ)
    (previous : Option Char) : List Char → List Char → Option FuzzyMatch
  | [], _ => some ⟨0, []⟩
  | q :: query, rest => do
      let hit ← findHit q index 0 previous rest
      let found ← fuzzyMatchFrom candidate (hit.index + hit.char.utf8Size)
        (some hit.index) (some hit.char) query hit.rest
      return ⟨hit.score candidate q matchedAt + found.score,
        hit.index :: found.indices⟩

/-- Match the characters of the query one after the other. -/
def fuzzyMatch (query candidate : Text) : Option FuzzyMatch :=
  fuzzyMatchFrom candidate 0 none none query candidate

variable [Unicode]

/-- How well a label matches what has been typed. -/
def matchQuality (typed label : Text) : Option ℤ :=
  if typed.isEmpty then some 0
  else if typed.isPrefixOf label then some 400
  else if (toLowercase typed).isPrefixOf (toLowercase label) then some 300
  else (fuzzyMatch typed label).map FuzzyMatch.score

end Fuzzy

/-! ## Ranking -/

/-- One scored candidate. -/
structure Ranked where
  score : ℤ
  candidate : Candidate
  deriving DecidableEq, Repr

namespace Ranked

def label (ranked : Ranked) : Text := ranked.candidate.label

/-- What scored candidates are compared by: the higher score is better, and of
equal scores the smaller label. -/
def key (ranked : Ranked) : ℤ ×ₗ Textᵒᵈ :=
  toLex (ranked.score, OrderDual.toDual ranked.label)

end Ranked

/-- One item of the popup. -/
structure CompletionItem where
  label : Text
  kind : CompletionKind
  detail : Text
  insert : Text
  /-- the range that the item replaces -/
  replace : ByteRange
  score : ℤ
  deriving DecidableEq, Repr

section Rank

variable [CharTables] [Unicode]

/-- Score a candidate, if it matches. -/
def scored (typed : Text) (candidate : Candidate) : Option Ranked :=
  (matchQuality typed candidate.label).map fun quality =>
    ⟨candidate.weight * 1000 + quality * 4 - candidate.label.length, candidate⟩

omit [CharTables] [Unicode] in
/-- Keep the first one of the best of one label and kind. -/
def insertBest (best : HashMap (Text × CompletionKind) Ranked)
    (ranked : Ranked) : HashMap (Text × CompletionKind) Ranked :=
  let key := (ranked.label, ranked.candidate.kind)
  match best.lookup key with
  | none => best.insert key ranked
  | some old => if old.score < ranked.score then best.insert key ranked else best

/-- The best candidates of each label and kind. -/
def bestOf (candidates : List Candidate) (typed : Text) :
    HashMap (Text × CompletionKind) Ranked :=
  (candidates.filterMap (scored typed)).foldl insertBest ∅

omit [CharTables] [Unicode] in
def Ranked.item (replace : ByteRange) (ranked : Ranked) : CompletionItem where
  label := ranked.candidate.label
  kind := ranked.candidate.kind
  detail := ranked.candidate.detail
  insert := ranked.candidate.insert
  replace := replace
  score := ranked.score

omit [CharTables] [Unicode] in
/-- The order in which a hash map lists its values. -/
structure HashOrder where
  list : List Ranked → List Ranked
  perm : ∀ values, (list values).Perm values

def rank (order : HashOrder) (candidates : List Candidate) (typed : Text)
    (replace : ByteRange) : List CompletionItem :=
  let values := (bestOf candidates typed).entries.map Sigma.snd
  (TopN.sorted Ranked.key
    (TopN.keep Ranked.key completionLimit (order.list values))).map
    (Ranked.item replace)

end Rank

/-! ## The best of each label and kind -/

section Determinism

variable {best : HashMap (Text × CompletionKind) Ranked} {ranked : Ranked}

/-- Insertion leaves each value at its label and kind, and adds no other value
than the one inserted. -/
theorem mem_insertBest {entry : Sigma fun _ : Text × CompletionKind => Ranked}
    (h : entry ∈ (insertBest best ranked).entries) :
    entry = ⟨(ranked.label, ranked.candidate.kind), ranked⟩ ∨
      entry ∈ best.entries := by
  obtain ⟨key, value⟩ := entry
  rw [← AList.mem_lookup_iff] at h
  have hinsert : value ∈ (best.insert (ranked.label, ranked.candidate.kind)
      ranked).lookup key →
        (⟨key, value⟩ : Sigma fun _ : Text × CompletionKind => Ranked)
            = ⟨(ranked.label, ranked.candidate.kind), ranked⟩ ∨
          ⟨key, value⟩ ∈ best.entries := by
    intro h
    by_cases hkey : key = (ranked.label, ranked.candidate.kind)
    · subst hkey
      rw [AList.lookup_insert] at h
      obtain rfl := Option.some.inj h
      exact .inl rfl
    · rw [AList.lookup_insert_ne hkey] at h
      exact .inr (AList.mem_lookup_iff.1 h)
  simp only [insertBest] at h
  split at h
  · exact hinsert h
  · split at h
    · exact hinsert h
    · exact .inr (AList.mem_lookup_iff.1 h)

theorem mem_foldl_insertBest {values : List Ranked}
    {entry : Sigma fun _ : Text × CompletionKind => Ranked}
    (h : entry ∈ (values.foldl insertBest best).entries) :
    (entry.2 ∈ values ∧
        entry.1 = (entry.2.label, entry.2.candidate.kind)) ∨
      entry ∈ best.entries := by
  induction values generalizing best with
  | nil => exact .inr h
  | cons value values ih =>
      rcases ih h with ⟨hmem, hkey⟩ | hmem
      · exact .inl ⟨List.mem_cons_of_mem value hmem, hkey⟩
      · rcases mem_insertBest hmem with rfl | hmem
        · exact .inl ⟨List.mem_cons_self, rfl⟩
        · exact .inr hmem

variable [CharTables] [Unicode] {candidates : List Candidate} {typed : Text}

/-- What the map holds is a scored candidate, at its label and kind. -/
theorem mem_bestOf {entry : Sigma fun _ : Text × CompletionKind => Ranked}
    (h : entry ∈ (bestOf candidates typed).entries) :
    (∃ candidate ∈ candidates, scored typed candidate = some entry.2) ∧
      entry.1 = (entry.2.label, entry.2.candidate.kind) := by
  rcases mem_foldl_insertBest h with ⟨hmem, hkey⟩ | hmem
  · exact ⟨List.mem_filterMap.1 hmem, hkey⟩
  · cases hmem

/-- Candidates of one label score alike only if they weigh alike. -/
theorem weight_eq_of_scored {a b : Candidate} {x y : Ranked}
    (hx : scored typed a = some x) (hy : scored typed b = some y)
    (hlabel : x.label = y.label) (hscore : x.score = y.score) :
    x.candidate = a ∧ y.candidate = b ∧ a.weight = b.weight := by
  obtain ⟨quality, hquality, rfl⟩ := Option.map_eq_some_iff.1 hx
  obtain ⟨quality', hquality', rfl⟩ := Option.map_eq_some_iff.1 hy
  have hlabels : a.label = b.label := hlabel
  rw [hlabels, hquality', Option.some_inj] at hquality
  subst hquality
  refine ⟨rfl, rfl, ?_⟩
  simp only [hlabels] at hscore
  omega

/-- Candidates whose weights tell their kinds have different keys in the
map. -/
theorem nodup_keys_bestOf
    (h : ∀ a ∈ candidates, ∀ b ∈ candidates, a.label = b.label →
      a.weight = b.weight → a.kind = b.kind) :
    (((bestOf candidates typed).entries.map Sigma.snd).map
      Ranked.key).Nodup := by
  rw [List.map_map]
  refine List.Nodup.map_on ?_ (bestOf candidates typed).nodupKeys.nodup
  intro x hx y hy hkey
  obtain ⟨⟨a, ha, hax⟩, hxkey⟩ := mem_bestOf hx
  obtain ⟨⟨b, hb, hby⟩, hykey⟩ := mem_bestOf hy
  have hpair : x.2.score = y.2.score ∧ x.2.label = y.2.label := by
    have hparts := Prod.ext_iff.1 (toLex.injective hkey)
    exact ⟨hparts.1, OrderDual.toDual.injective hparts.2⟩
  obtain ⟨hxa, hyb, hweight⟩ := weight_eq_of_scored hax hby hpair.2 hpair.1
  have hlabel : a.label = b.label := by
    rw [← hxa, ← hyb]
    exact hpair.2
  refine (bestOf candidates typed).nodupKeys.eq_of_fst_eq hx hy ?_
  rw [hxkey, hykey, hpair.2, hxa, hyb, h a ha b hb hlabel hweight]

/-- The order of the map does not matter to candidates whose weights tell their
kinds. -/
theorem rank_eq_rank (order order' : HashOrder) {replace : ByteRange}
    (h : ∀ a ∈ candidates, ∀ b ∈ candidates, a.label = b.label →
      a.weight = b.weight → a.kind = b.kind) :
    rank order candidates typed replace =
      rank order' candidates typed replace := by
  have hnodup : (((bestOf candidates typed).entries.map Sigma.snd).map
      Ranked.key).Nodup := nodup_keys_bestOf h
  rw [rank, rank]
  congr 1
  apply TopN.sorted_keep_eq_of_perm
  · exact (order.perm _).trans (order'.perm _).symm
  · exact (((order.perm _).map Ranked.key).nodup_iff).2 hnodup

end Determinism

/-! ## Weights and kinds -/

/-- The kind that candidates of a weight have. -/
def kindOfWeight (weight : ℤ) : CompletionKind :=
  if weight = weightColumn ∨ weight = weightColumnQualified then .column
  else if weight = weightCte then .cte
  else if weight = weightRelation ∨ weight = weightRelationExpression then
    .table
  else if weight = weightFunction then .function
  else if weight = weightSchema then .schema
  else if weight = weightAlias then .alias
  else .keyword

/-- The weight of the candidate tells its kind. -/
def Candidate.WeightTellsKind (candidate : Candidate) : Prop :=
  candidate.kind = kindOfWeight candidate.weight

/-- The candidate has one of the weights of the generator, and it tells its
kind. -/
structure Candidate.IsWeighed (candidate : Candidate) : Prop where
  mem : candidate.weight ∈ generatorWeights
  kind : candidate.WeightTellsKind

theorem Candidate.isWeighed_of {candidate : Candidate} (weight : ℤ)
    (hmem : weight ∈ generatorWeights) (hweight : candidate.weight = weight)
    (hkind : candidate.kind = kindOfWeight weight) : candidate.IsWeighed where
  mem := hweight ▸ hmem
  kind := by rw [Candidate.WeightTellsKind, hweight, hkind]

section Kinds

variable {Id : Type} [Unicode] [CharTables]
  {catalog : CatalogCache Id} {frames : List Frame} {candidate : Candidate}

omit [CharTables] in
theorem columns_isWeighed (h : candidate ∈ columns catalog frames) :
    candidate.IsWeighed := by
  obtain ⟨binding, -, h⟩ := List.mem_flatMap.1 h
  obtain ⟨column, -, h⟩ := List.mem_filterMap.1 h
  rw [columnCandidate] at h
  split at h
  · cases h
  · simp only at h
    split at h
    · obtain rfl := Option.some.inj h
      exact Candidate.isWeighed_of weightColumn (by decide) rfl rfl
    · split at h
      · obtain rfl := Option.some.inj h
        exact Candidate.isWeighed_of weightColumnQualified (by decide) rfl rfl
      · cases h

omit [Unicode] in
theorem keywordCandidates_isWeighed
    (h : candidate ∈ keywordCandidates catalog) :
    candidate.IsWeighed := by
  obtain ⟨keyword, -, rfl⟩ := List.mem_map.1 h
  exact Candidate.isWeighed_of weightKeyword (by decide) rfl rfl

omit [Unicode] in
theorem statementKeywordCandidates_isWeighed
    (h : candidate ∈ statementKeywordCandidates) :
    candidate.IsWeighed := by
  obtain ⟨keyword, -, rfl⟩ := List.mem_map.1 h
  exact Candidate.isWeighed_of weightStatementKeyword (by decide) rfl rfl

omit [Unicode] [CharTables] in
theorem cteCandidates_isWeighed (h : candidate ∈ cteCandidates frames) :
    candidate.IsWeighed := by
  obtain ⟨cte, -, h⟩ := List.mem_filterMap.1 h
  obtain ⟨name, -, rfl⟩ := Option.map_eq_some_iff.1 h
  exact Candidate.isWeighed_of weightCte (by decide) rfl rfl

omit [CharTables] in
theorem relationCandidates_isWeighed {typed : Text} {weight : ℤ}
    (hmem : weight ∈ generatorWeights) (hweight : kindOfWeight weight = .table)
    (h : candidate ∈ relationCandidates catalog typed weight) :
    candidate.IsWeighed := by
  obtain ⟨index, -, h⟩ := List.mem_filterMap.1 h
  obtain ⟨entry, -, h⟩ := Option.bind_eq_some_iff.1 h
  rw [relationCandidate.eq_def] at h
  split at h
  · obtain rfl := Option.some.inj h
    exact Candidate.isWeighed_of weight hmem rfl hweight.symm
  · obtain rfl := Option.some.inj h
    exact Candidate.isWeighed_of weight hmem rfl hweight.symm
  · cases h

omit [CharTables] in
theorem functionCandidates_isWeighed {typed : Text}
    (h : candidate ∈ functionCandidates catalog typed) :
    candidate.IsWeighed := by
  obtain ⟨index, -, h⟩ := List.mem_filterMap.1 h
  obtain ⟨entry, -, h⟩ := Option.bind_eq_some_iff.1 h
  rw [functionCandidate.eq_def] at h
  split at h
  · obtain rfl := Option.some.inj h
    exact Candidate.isWeighed_of weightFunction (by decide) rfl rfl
  · cases h

omit [Unicode] [CharTables] in
theorem schemaCandidates_isWeighed
    (h : candidate ∈ schemaCandidates catalog) :
    candidate.IsWeighed := by
  obtain ⟨schema, -, rfl⟩ := List.mem_map.1 h
  exact Candidate.isWeighed_of weightSchema (by decide) rfl rfl

omit [Unicode] [CharTables] in
theorem aliasCandidates_isWeighed
    (h : candidate ∈ aliasCandidates frames) : candidate.IsWeighed := by
  obtain ⟨binding, -, h⟩ := List.mem_filterMap.1 h
  obtain ⟨own, -, rfl⟩ := Option.map_eq_some_iff.1 h
  exact Candidate.isWeighed_of weightAlias (by decide) rfl rfl

omit [CharTables] in
theorem qualifiedCandidates_isWeighed {last : Text}
    (h : candidate ∈ qualifiedCandidates catalog frames last) :
    candidate.IsWeighed := by
  rw [qualifiedCandidates] at h
  split at h
  · obtain ⟨info, -, rfl⟩ := List.mem_map.1 h
    exact Candidate.isWeighed_of weightColumn (by decide) rfl rfl
  · split at h
    · obtain ⟨index, -, h⟩ := List.mem_filterMap.1 h
      obtain ⟨entry, -, rfl⟩ := Option.map_eq_some_iff.1 h
      exact Candidate.isWeighed_of weightRelation (by decide) rfl rfl
    · cases h

omit [CharTables] in
theorem qualifierCandidates_isWeighed {parts : List Text}
    (h : candidate ∈ qualifierCandidates catalog frames parts) :
    candidate.IsWeighed := by
  rw [qualifierCandidates] at h
  split at h
  · cases h
  · exact qualifiedCandidates_isWeighed h
  · obtain ⟨relation, -, h⟩ := List.mem_flatMap.1 h
    obtain ⟨entry, -, h⟩ := List.mem_filterMap.1 h
    split at h
    · obtain rfl := Option.some.inj h
      exact Candidate.isWeighed_of weightColumn (by decide) rfl rfl
    · cases h

/-- Every candidate is weighed by the generator. -/
theorem generate_isWeighed {cursor : CursorContext}
    (h : candidate ∈ generate catalog frames cursor) :
    candidate.IsWeighed := by
  rw [generate] at h
  split at h
  · exact keywordCandidates_isWeighed h
  · split at h
    · exact statementKeywordCandidates_isWeighed h
    · simp only [List.mem_append] at h
      rcases h with (h | h) | h
      · exact cteCandidates_isWeighed h
      · exact relationCandidates_isWeighed (by decide) (by decide) h
      · exact schemaCandidates_isWeighed h
    · simp only [List.mem_append] at h
      rcases h with (((h | h) | h) | h) | h
      · exact columns_isWeighed h
      · exact relationCandidates_isWeighed (by decide) (by decide) h
      · exact functionCandidates_isWeighed h
      · exact keywordCandidates_isWeighed h
      · exact aliasCandidates_isWeighed h
    · cases h
    · exact qualifierCandidates_isWeighed h

/-- The weight of every candidate tells its kind. -/
theorem generate_weightTellsKind {cursor : CursorContext}
    (h : candidate ∈ generate catalog frames cursor) :
    candidate.WeightTellsKind :=
  (generate_isWeighed h).kind

end Kinds

end Tempr.Intel
