import Tempr.Intel.Completion

/-!
# Hover

The reference under the cursor, and the card that is shown for what it resolves
to: a column or a source of the visible scopes, or an object of the catalog.
-/

namespace Tempr.Intel

open Tempr.Editor (ByteRange Rope)
open Tempr.Editor.Rope (lenBytes)

/-! ## The reference under the cursor -/

structure Reference where
  range : ByteRange
  path : List Text
  word : Text
  deriving DecidableEq, Repr

/-- Where the quote stands that opens the name which a quote closes after
`before`. -/
def openingQuote (before : Text) : Option ℕ :=
  (quotedBack [] before.reverse).map Prod.snd

/-- Where the quote stands that closes a quoted name, read from the offset `idx`
on. -/
def closingQuoteFrom (idx : ℕ) : List Char → Option ℕ
  | '"' :: '"' :: rest => closingQuoteFrom (idx + 2) rest
  | '"' :: _ => some idx
  | c :: rest => closingQuoteFrom (idx + c.utf8Size) rest
  | [] => none

/-- The bytes `start..stop` of a text. -/
def sliceRange (text : Text) (start stop : ℕ) : Option Text := do
  sliceFrom (← sliceTo text stop) start

section Words

variable [CharTables]

/-- Where a word at the offset begins to be read, and whether it is quoted. -/
def wordSeed (before after : Text) : Option (ℕ × Bool) :=
  let offset := lenBytes before
  match after.head? with
  | some '"' => some (offset, true)
  | at_ =>
      if at_.any isIdentChar then some (offset, false)
      else
        match before.getLast? with
        | some '"' => (openingQuote before.dropLast).map (·, true)
        | some c =>
            if isIdentChar c then some (lenBytes before.dropLast, false)
            else none
        | none => none

/-- The word at an offset that is a character boundary. -/
def wordAt (text : Text) (offset : ℕ) : Option (Option (ByteRange × Text)) := do
  if text.isEmpty then return none
  match wordSeed (← sliceTo text offset) (← sliceFrom text offset) with
  | none => return none
  | some (start, true) =>
      match closingQuoteFrom (start + 1) (← sliceFrom text (start + 1)) with
      | none => return none
      | some stop =>
          let inner := unescapeQuotes (← sliceRange text (start + 1) stop)
          return if inner.isEmpty then none else some (⟨start, stop + 1⟩, inner)
  | some (seed, false) =>
      let start := wordStart (← sliceTo text seed)
      let base := max offset start
      let stop :=
        base + lenBytes ((← sliceFrom text base).takeWhile isIdentChar)
      if start = stop then return none
      return some (⟨start, stop⟩, ← sliceRange text start stop)

/-- The reference under an offset, with the qualifier before it. -/
def referenceAt (text : Text) (offset : ℕ) : Option (Option Reference) := do
  let offset := min offset (lenBytes text)
  if ¬Rope.IsCharBoundary text offset then return none
  match ← wordAt text offset with
  | none => return none
  | some (range, word) =>
      match ← qualifierBefore text range.start with
      | some (path, start) => return some ⟨⟨start, range.stop⟩, path, word⟩
      | none => return some ⟨range, [], word⟩

end Words

/-! ## Cards -/

/-- Lines of a card. -/
def joinLines (lines : List Text) : Text := ['\n'].intercalate lines

def kindWord {Id : Type} : CatalogEntry Id → Text
  | .table _ _ _ _ => "table".toList
  | .view _ _ _ _ => "view".toList
  | .column _ _ _ _ _ _ _ => "column".toList
  | .index _ _ _ _ _ _ => "index".toList
  | .function _ _ _ _ _ _ => "function".toList

section Cards

variable {Id : Type}

/-- An object with its schema. -/
def qualifiedName (entry : CatalogEntry Id) : Text :=
  entry.schema.getD "public".toList ++ ".".toList ++ entry.name

def bindingOwner (catalog : CatalogCache Id) (binding : Binding) :
    Option Text :=
  ((binding.object.bind catalog.object).map qualifiedName).or
    (binding.alias.or binding.name)

def catalogColumnCard (catalog : CatalogCache Id) (relation : ℕ) :
    CatalogEntry Id → Text
  | .column _ _ name dataType nullable _ default =>
      let owner := ((catalog.object relation).map qualifiedName).getD
        "?".toList
      joinLines
        (["column `".toList ++ owner ++ ".".toList ++ name ++ "`".toList,
            "type: ".toList ++ columnType dataType nullable]
          ++ (default.map ("default: ".toList ++ ·)).toList)
  | _ => []

def columnCard (catalog : CatalogCache Id) (column : ColumnRef)
    (owner : Option Binding) : Option Text :=
  match column with
  | .catalog index =>
      match catalog.object index with
      | some (.column id parent name dataType nullable ordinal default) =>
          some (catalogColumnCard catalog parent
            (.column id parent name dataType nullable ordinal default))
      | _ => none
  | .local name dataType =>
      let source := (owner.bind (bindingOwner catalog)).getD "query".toList
      some (joinLines
        ["column `".toList ++ name ++ "`".toList,
          "type: ".toList ++ dataType.getD "unknown".toList,
          "from: ".toList ++ source])

/-- The lines of at most twelve columns, and how many more there are. -/
def columnLines (count : ℕ) (lines : List Text) : List Text :=
  lines ++
    if 12 < count then
      ["  … ".toList ++ (Nat.repr (count - 12)).toList ++ " more".toList]
    else []

variable [CharTables]

def relationHeader : CatalogEntry Id → Option Text
  | .table _ schema name rows =>
      some ("table ".toList ++ schema ++ ".".toList ++ name
        ++ (rows.map fun n =>
          " · ~".toList ++ (Nat.repr n).toList ++ " rows".toList).getD [])
  | .view _ schema name definition =>
      some ("view ".toList ++ schema ++ ".".toList ++ name
        ++ "\ndefinition:\n".toList ++ trimEnd (trimStart definition))
  | _ => none

def relationCard (catalog : CatalogCache Id) (relation : ℕ) : Option Text := do
  let entry ← catalog.object relation
  let header ← relationHeader entry
  let columns := catalog.columnsOf relation
  let lines := (columns.take 12).filterMap fun
    | .column _ _ name dataType nullable _ _ =>
        some ("  ".toList ++ name ++ " ".toList ++ columnType dataType nullable)
    | _ => none
  return joinLines (header :: if columns.isEmpty then []
    else "columns:".toList :: columnLines columns.length lines)

omit [CharTables] in
def bindingHeader (catalog : CatalogCache Id) (binding : Binding) : Text :=
  match binding.object.bind catalog.object with
  | some entry =>
      (binding.alias.map fun own =>
        "alias `".toList ++ own ++ "` → ".toList).getD [] ++ kindWord entry
        ++ " ".toList ++ qualifiedName entry
  | none =>
      match binding.alias, binding.name with
      | some own, some name =>
          "alias `".toList ++ own ++ "` → ".toList ++ name
      | some own, none => "alias `".toList ++ own ++ "`".toList
      | none, some name => "`".toList ++ name ++ "`".toList
      | none, none => "source".toList

omit [CharTables] in
/-- The type of a column in the card of its source. -/
def columnTypeOf (catalog : CatalogCache Id) : ColumnRef → Option Text
  | .catalog index =>
      match catalog.object index with
      | some (.column _ _ _ dataType nullable _ _) =>
          some (columnType dataType nullable)
      | _ => none
  | .local _ dataType => dataType

omit [CharTables] in
def bindingCard (catalog : CatalogCache Id) (binding : Binding) : Text :=
  let lines := (binding.columns.take 12).map fun column =>
    "  ".toList ++ (column.name catalog).getD [] ++ " ".toList
      ++ (columnTypeOf catalog column).getD []
  joinLines (bindingHeader catalog binding :: if binding.columns.isEmpty then []
    else "columns:".toList :: columnLines binding.columns.length lines)

omit [CharTables] in
def functionCard : CatalogEntry Id → Text
  | .function _ schema name parameters returnType language =>
      "function ".toList ++ schema ++ ".".toList ++ name ++ "(".toList
        ++ ", ".toList.intercalate
          (parameters.map fun p => p.1 ++ " ".toList ++ p.2)
        ++ ") → ".toList ++ returnType ++ "\nlanguage: ".toList ++ language
  | _ => []

omit [CharTables] in
def schemaCard [Unicode] (catalog : CatalogCache Id) (schema : Text) : Text :=
  let names := (catalog.relationsInSchema schema).filterMap fun idx =>
    (catalog.object idx).map CatalogEntry.name
  "schema `".toList ++ schema ++ "` · ".toList
    ++ (Nat.repr names.length).toList ++ " relations".toList
    ++ if names.isEmpty then []
      else '\n' :: ", ".toList.intercalate (names.take 20)
        ++ if 20 < names.length then ", …".toList else []

/-! ## Resolution -/

variable [Unicode]

omit [CharTables] in
/-- The places of a relation's columns of a folded name. -/
def CatalogCache.columnFolded (catalog : CatalogCache Id) (relation : ℕ)
    (name : Text) : List ℕ :=
  let start := ((catalog.columnRanges[relation]?).map Prod.fst).getD 0
  ((catalog.columnsOf relation).zipIdx.filter fun p =>
    decide (toLowercase p.1.name = toLowercase name)).map fun p => start + p.2

omit [CharTables] in
/-- The relations of a folded name, in any schema. -/
def relationsFolded (catalog : CatalogCache Id) (name : Text) : List ℕ :=
  ((catalog.schemas.flatMap fun schema =>
    catalog.relationFolded schema name).insertionSort (· ≤ ·)).destutter
    (· ≠ ·)

omit [CharTables] in
/-- The first function of a name, among those that the prefix search finds. -/
def functionNamed (catalog : CatalogCache Id) (name : Text) :
    Option (CatalogEntry Id) :=
  ((catalog.prefixSearch name 500).1.filterMap catalog.object).find? fun entry =>
    (match entry with
      | .function _ _ _ _ _ _ => true
      | _ => false) && decide (asciiLowercase entry.name = asciiLowercase name)

/-- What the relations of a name in the catalog show. -/
def relationsCard (catalog : CatalogCache Id) (written : Text)
    (fallback : Option Text) : List ℕ → Option Text
  | [] => fallback
  | [idx] => relationCard catalog idx
  | many =>
      some ("relation `".toList ++ written ++ "` is ambiguous\n".toList
        ++ joinLines
          ((many.filterMap catalog.object).map fun entry =>
            entry.schema.getD "?".toList ++ ".".toList ++ entry.name))

/-- The columns of a name that the sources of one scope have. -/
def scopeHits (catalog : CatalogCache Id) (word : Text) (scope : Scope) :
    List (Binding × ColumnRef) :=
  scope.bindings.flatMap fun binding =>
    (binding.columnHits word catalog).map fun column => (binding, column)

/-- The card of a column of that name, looked for scope by scope from the
innermost; and whether there is one to look no further. -/
def bareColumnCard (catalog : CatalogCache Id) (word : Text) :
    List Scope → Option (Option Text)
  | [] => none
  | scope :: scopes =>
      match scopeHits catalog word scope with
      | [] => bareColumnCard catalog word scopes
      | [(binding, column)] => some (columnCard catalog column (some binding))
      | many =>
          let names := many.filterMap fun hit =>
            (bindingOwner catalog hit.1).map (· ++ ".".toList ++ word)
          some (some ("column `".toList ++ word ++ "` is ambiguous".toList
            ++ if names.isEmpty then [] else '\n' :: joinLines names))

/-- The card of a source that the word names. -/
def sourceCard (catalog : CatalogCache Id) (binding : Binding) : Text :=
  ((if binding.alias.isNone then binding.object.bind (relationCard catalog)
    else none)).getD (bindingCard catalog binding)

/-- The card of a function or a schema. -/
def functionOrSchemaCard (catalog : CatalogCache Id) (word : Text) :
    Option Text :=
  match functionNamed catalog word with
  | some entry => some (functionCard entry)
  | none =>
      if catalog.schemas.any fun schema =>
          decide (asciiLowercase schema = asciiLowercase word) then
        some (schemaCard catalog word)
      else none

/-- The card of a word without a qualifier. The chain of scopes has the innermost
first. -/
def Hover.resolveBare (catalog : CatalogCache Id) (chain : List Scope) (word : Text) :
    Option Text :=
  match bareColumnCard catalog word chain with
  | some card => card
  | none =>
      match (chain.flatMap Scope.bindings).find? (·.matchesQualifier word) with
      | some binding => some (sourceCard catalog binding)
      | none =>
          relationsCard catalog word (functionOrSchemaCard catalog word)
            (relationsFolded catalog word)

/-- A source by qualifier: the CTEs of a scope before its bindings. -/
def Scope.qualifierBinding (scope : Scope) (qualifier : Text) :
    Option Binding :=
  (scope.ctes ++ scope.bindings).find? (·.matchesQualifier qualifier)

/-- The card of the first column that one of the relations has. -/
def relationColumnCard (catalog : CatalogCache Id) (word : Text)
    (relations : List ℕ) : Option Text :=
  relations.findSome? fun idx =>
    ((catalog.columnFolded idx word).head?.bind catalog.object).map
      (catalogColumnCard catalog idx)

/-- The card of a word with a qualifier. -/
def Hover.resolveQualified (catalog : CatalogCache Id) (chain : List Scope)
    (qualifier word : Text) : Option Text :=
  match chain.findSome? (·.qualifierBinding qualifier) with
  | some binding =>
      match binding.columnHits word catalog with
      | [column] => columnCard catalog column (some binding)
      | [] => none
      | many =>
          some ("column `".toList ++ qualifier ++ ".".toList ++ word
            ++ "` is ambiguous\n".toList
            ++ ", ".toList.intercalate
              (many.filterMap (ColumnRef.name catalog)))
  | none =>
      relationsCard catalog (qualifier ++ ".".toList ++ word)
        (relationColumnCard catalog word (relationsFolded catalog qualifier))
        (catalog.relationFolded qualifier word)

/-- The card of a word with a schema and a relation. -/
def Hover.resolveSchemaRelation (catalog : CatalogCache Id)
    (schema relation word : Text) : Option Text := do
  let rel ← (catalog.relationFolded schema relation).head?
  match (catalog.columnFolded rel word).head? with
  | some index =>
      (catalog.object index).map (catalogColumnCard catalog rel)
  | none => relationCard catalog rel

/-- The card of a reference. Of a longer path the last two parts count. -/
def Hover.resolve (catalog : CatalogCache Id) (analysis : Analysis) (offset : ℕ)
    (reference : Reference) : Option Text :=
  let chain := (analysis.scopeChain offset).reverse
  match reference.path.reverse with
  | [] => Hover.resolveBare catalog chain reference.word
  | [qualifier] => Hover.resolveQualified catalog chain qualifier reference.word
  | relation :: schema :: _ =>
      Hover.resolveSchemaRelation catalog schema relation reference.word

end Cards

end Tempr.Intel
