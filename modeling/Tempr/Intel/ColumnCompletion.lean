import Tempr.Intel.Silence

/-!
# Column completions

The columns that completion offers where an expression is written: by their bare
names where these are unique among the visible sources, and else qualified. A
bare name that is offered resolves. A qualified one resolves in the first source
that answers the qualifier, which need not be the one it was offered for.
-/

namespace Tempr.Intel

open Tempr.Support Tempr.Services
open Tempr.Editor (ByteRange)

/-! ## Candidates -/

inductive CompletionKind
  | keyword
  | table
  | column
  | schema
  | «alias»
  | cte
  | function
  | snippet
  | plugin
  deriving DecidableEq, Repr

structure Candidate where
  label : Text
  /-- the text that is written -/
  insert : Text
  kind : CompletionKind
  detail : Text
  weight : ℤ
  deriving DecidableEq, Repr

def weightColumn : ℤ := 500

def weightColumnQualified : ℤ := 480

section

variable {Id : Type} [DecidableEq Id] [Unicode]

/-- The type of a column of the catalog as it is shown. -/
def columnType (dataType : Text) (nullable : Bool) : Text :=
  if nullable then dataType else dataType ++ " not null".toList

/-- The name and the type of a column. -/
def columnInfo (catalog : CatalogCache Id) :
    ColumnRef → Option (Text × Option Text)
  | .catalog index =>
      match catalog.object index with
      | some (.column _ _ name dataType nullable _ _) =>
          some (name, some (columnType dataType nullable))
      | _ => none
  | .local name dataType => some (name, dataType)

/-- What a source is called in a qualified name. -/
def bindingQualifier (binding : Binding) : Option Text :=
  binding.alias.or binding.name

def columnDetail : Option Text → Option Text → Text
  | some ty, some owner => ty ++ " · ".toList ++ owner
  | some ty, none => ty
  | none, some owner => owner
  | none, none => []

/-- The sources that columns are offered from. -/
def visibleBindings (frames : List Frame) : List Binding :=
  frames.flatMap Frame.bindings

/-- How many of the sources have a column of the folded name. -/
def columnCount (catalog : CatalogCache Id) (bindings : List Binding)
    (key : Text) : ℕ :=
  (bindings.filter fun binding =>
    binding.columns.any fun column =>
      (columnInfo catalog column).any fun info =>
        decide (toLowercase info.1 = key)).length

/-- The candidate for a column of a source. A repeated name is qualified. -/
def columnCandidate (catalog : CatalogCache Id) (bindings : List Binding)
    (binding : Binding) (column : ColumnRef) : Option Candidate :=
  match columnInfo catalog column with
  | none => none
  | some (name, ty) =>
      let owner := bindingQualifier binding
      if columnCount catalog bindings (toLowercase name) ≤ 1 then
        some
          { label := name, insert := quoteIdent name, kind := .column
            detail := columnDetail ty owner, weight := weightColumn }
      else
        match owner with
        | some owner =>
            some
              { label := owner ++ ".".toList ++ name
                insert := quoteIdent owner ++ ".".toList ++ quoteIdent name
                kind := .column, detail := columnDetail ty owner
                weight := weightColumnQualified }
        | none => none

/-- The column candidates of an expression. -/
def columns (catalog : CatalogCache Id) (frames : List Frame) :
    List Candidate :=
  let bindings := visibleBindings frames
  bindings.flatMap fun binding =>
    binding.columns.filterMap (columnCandidate catalog bindings binding)

/-! ## Columns of the catalog -/

/-- A column of the catalog is a column there. -/
def ColumnRef.isColumnOf (catalog : CatalogCache Id) : ColumnRef → Bool
  | .catalog index => (catalog.object index).any CatalogEntry.isColumn
  | .local _ _ => true

/-- The columns of a source are columns. -/
def Binding.OfCatalog (catalog : CatalogCache Id) (binding : Binding) : Prop :=
  ∀ column ∈ binding.columns, column.isColumnOf catalog = true

instance (catalog : CatalogCache Id) (binding : Binding) :
    Decidable (binding.OfCatalog catalog) :=
  inferInstanceAs (Decidable (∀ column ∈ _, _))

variable {catalog : CatalogCache Id} {frames : List Frame}

omit [DecidableEq Id] [Unicode] in
theorem columnInfo_name {column : ColumnRef}
    (h : column.isColumnOf catalog = true) :
    (columnInfo catalog column).map Prod.fst = column.name catalog := by
  cases column with
  | «local» name dataType => rfl
  | catalog index =>
      obtain ⟨entry, hentry, hkind⟩ := (Option.any_eq_true _ _).1 h
      cases entry with
      | column id parent name dataType nullable ordinal default =>
          rw [columnInfo, ColumnRef.name, hentry]
          rfl
      | _ => cases hkind

omit [DecidableEq Id] in
/-- A source with a column of a name has one for the analysis and for
completion. -/
theorem columnHits_ne_nil_iff {binding : Binding}
    (h : binding.OfCatalog catalog) {name : Text} :
    binding.columnHits name catalog ≠ [] ↔
      (binding.columns.any fun column =>
        (columnInfo catalog column).any fun info =>
          decide (toLowercase info.1 = toLowercase name)) = true := by
  rw [List.any_eq_true, Binding.columnHits, Ne, List.filter_eq_nil_iff]
  push Not
  refine exists_congr fun column => and_congr_right fun hcolumn => ?_
  rw [← columnInfo_name (h column hcolumn)]
  cases columnInfo catalog column <;> simp

omit [DecidableEq Id] in
theorem length_bareHits {frame : Frame}
    (h : ∀ binding ∈ frame.bindings, binding.OfCatalog catalog)
    (name : Text) :
    (bareHits catalog name frame).length =
      columnCount catalog frame.bindings (toLowercase name) := by
  rw [bareHits, List.length_map, columnCount]
  congr 1
  apply List.filter_congr
  intro binding hbinding
  rw [Bool.eq_iff_iff, ← columnHits_ne_nil_iff (h binding hbinding)]
  simp only [Bool.and_eq_true, Bool.not_eq_true', List.isEmpty_eq_false_iff]
  constructor
  · exact fun hhits => hhits.2
  · intro hhits
    refine ⟨?_, hhits⟩
    intro hnil
    exact hhits (by simp [Binding.columnHits, hnil])

/-! ## Bare candidates -/

omit [DecidableEq Id] in
/-- A name that one of the visible sources has once resolves. -/
theorem resolveBare_of_one
    (h : ∀ binding ∈ visibleBindings frames, binding.OfCatalog catalog)
    {name : Text} {range : ByteRange} {anyColumns : Bool}
    (hone : columnCount catalog (visibleBindings frames) (toLowercase name)
      = 1) :
    resolveBare catalog name range anyColumns frames = none := by
  induction frames generalizing anyColumns with
  | nil => simp [visibleBindings, columnCount] at hone
  | cons frame frames ih =>
      rw [visibleBindings, List.flatMap_cons, List.forall_mem_append] at h
      have hcount : columnCount catalog frame.bindings (toLowercase name)
          + columnCount catalog (visibleBindings frames) (toLowercase name)
            = 1 := by
        rw [← hone, columnCount, columnCount, columnCount, ← List.length_append,
          ← List.filter_append]
        rfl
      rw [← length_bareHits h.1] at hcount
      rw [resolveBare]
      split
      · next hnil =>
          rw [hnil, List.length_nil, Nat.zero_add] at hcount
          exact ih h.2 hcount
      · rfl
      · next hnil hlone =>
          exfalso
          rcases hhits : bareHits catalog name frame with
            _ | ⟨label, _ | ⟨label', rest⟩⟩
          · exact hnil hhits
          · exact hlone label hhits
          · rw [hhits, List.length_cons, List.length_cons] at hcount
            omega

omit [DecidableEq Id] in
theorem columnCount_pos {bindings : List Binding} {binding : Binding}
    (hbinding : binding ∈ bindings) {column : ColumnRef}
    (hcolumn : column ∈ binding.columns) {info : Text × Option Text}
    (hinfo : columnInfo catalog column = some info) :
    0 < columnCount catalog bindings (toLowercase info.1) := by
  apply List.length_pos_of_mem (a := binding)
  refine List.mem_filter.2 ⟨hbinding, List.any_eq_true.2 ⟨column, hcolumn, ?_⟩⟩
  simp [hinfo]

/-! ## Qualified candidates -/

/-- The sources in the order in which they are asked for a qualifier. -/
def answering (frames : List Frame) : List Binding :=
  frames.flatMap fun frame => frame.ctes ++ frame.bindings

theorem lookupQualifier_eq_find? (frames : List Frame) (qualifier : Text) :
    lookupQualifier frames qualifier =
      (answering frames).find? (·.matchesQualifier qualifier) := by
  induction frames with
  | nil => rfl
  | cons frame frames ih =>
      rw [lookupQualifier, List.findSome?_cons, answering, List.flatMap_cons,
        List.find?_append, List.find?_append, ← answering, ← ih,
        ← lookupQualifier, Frame.qualifier]
      cases (frame.ctes.find? (·.matchesQualifier qualifier)).or
        (frame.bindings.find? (·.matchesQualifier qualifier)) <;> rfl

theorem matchesQualifier_bindingQualifier {binding : Binding} {owner : Text}
    (h : bindingQualifier binding = some owner) :
    binding.matchesQualifier owner = true := by
  rw [bindingQualifier] at h
  rw [Binding.matchesQualifier]
  cases halias : binding.alias with
  | some own =>
      rw [halias, Option.some_or] at h
      simp [Option.some.inj h]
  | none =>
      rw [halias, Option.none_or] at h
      simp [h]

/-- A source that is visible answers its qualifier, or one asked before does. -/
theorem exists_answer {binding : Binding} {owner : Text}
    (hbinding : binding ∈ visibleBindings frames)
    (howner : bindingQualifier binding = some owner) :
    ∃ source, (answering frames).find? (·.matchesQualifier owner)
      = some source := by
  rw [← Option.isSome_iff_exists, List.find?_isSome]
  obtain ⟨frame, hframe, hmem⟩ := List.mem_flatMap.1 hbinding
  exact ⟨binding, List.mem_flatMap.2
    ⟨frame, hframe, List.mem_append_right _ hmem⟩,
    matchesQualifier_bindingQualifier howner⟩

omit [DecidableEq Id] in
theorem resolveAgainst_eq_none_iff {binding : Binding}
    {column qualifier : Text} {range : ByteRange} :
    resolveAgainst catalog binding column range qualifier = none ↔
      binding.columns = [] ∨ (binding.columnHits column catalog).length = 1 := by
  rw [resolveAgainst]
  split
  · next hnil => simp [List.isEmpty_iff.1 hnil]
  · next hcolumns =>
      have hne : binding.columns ≠ [] := by simpa using hcolumns
      rcases binding.columnHits column catalog with
        _ | ⟨hit, _ | ⟨other, rest⟩⟩ <;> simp [hne]

/-! ## What the candidates resolve to -/

/-- A candidate is written into the text and its names are read there. -/
def Candidate.Resolves (catalog : CatalogCache Id) (frames : List Frame)
    (candidate : Candidate) : Prop :=
  ∀ refs : List (Text × ByteRange),
    refs.map Prod.fst = referenceNames candidate.insert →
      resolveReference catalog frames refs = none

/-- A bare candidate resolves. -/
theorem resolves_bare
    (h : ∀ binding ∈ visibleBindings frames, binding.OfCatalog catalog)
    {candidate : Candidate} {name : Text}
    (hinsert : candidate.insert = quoteIdent name)
    (hone : columnCount catalog (visibleBindings frames) (toLowercase name)
      = 1) : candidate.Resolves catalog frames := by
  intro refs hrefs
  rw [hinsert, referenceNames_quoteIdent, List.map_eq_singleton_iff] at hrefs
  obtain ⟨⟨own, range⟩, rfl, rfl⟩ := hrefs
  exact resolveBare_of_one h hone

/-- A qualified candidate resolves where the first source that answers the
qualifier has one column of the name, or none at all. -/
theorem resolves_qualified_iff {candidate : Candidate} {owner name : Text}
    {source : Binding}
    (hinsert : candidate.insert =
      quoteIdent owner ++ ".".toList ++ quoteIdent name)
    (hsource : (answering frames).find? (·.matchesQualifier owner)
      = some source) :
    candidate.Resolves catalog frames ↔
      source.columns = [] ∨ (source.columnHits name catalog).length = 1 := by
  have hnames : referenceNames candidate.insert = [owner, name] := by
    rw [hinsert, List.append_assoc]
    exact referenceNames_qualified owner name
  have hresolve : ∀ refs : List (Text × ByteRange),
      refs.map Prod.fst = [owner, name] →
        (resolveReference catalog frames refs = none ↔
          source.columns = [] ∨
            (source.columnHits name catalog).length = 1) := by
    intro refs hrefs
    obtain ⟨⟨own, ownRange⟩, tail, rfl, rfl, htail⟩ :=
      List.map_eq_cons_iff.1 hrefs
    obtain ⟨⟨column, range⟩, rfl, rfl⟩ := List.map_eq_singleton_iff.1 htail
    simp only [resolveReference, List.reverse_cons, List.reverse_nil,
      List.nil_append, List.singleton_append, lookupQualifier_eq_find?,
      hsource]
    exact resolveAgainst_eq_none_iff
  constructor
  · intro h
    exact (hresolve [(owner, ⟨0, 0⟩), (name, ⟨0, 0⟩)] rfl).1
      (h _ (by rw [hnames]; rfl))
  · intro h refs hrefs
    exact (hresolve refs (hrefs.trans hnames)).2 h

/-- Every column candidate resolves if and only if, for each column whose name
several visible sources have, the first source that answers the qualifier of the
candidate has exactly one column of the name, or no column knowledge. -/
theorem columns_resolve_iff (catalog : CatalogCache Id) (frames : List Frame)
    (h : ∀ binding ∈ visibleBindings frames, binding.OfCatalog catalog) :
    (∀ candidate ∈ columns catalog frames,
        candidate.Resolves catalog frames) ↔
      ∀ binding ∈ visibleBindings frames, ∀ column ∈ binding.columns,
        ∀ info ∈ columnInfo catalog column,
          1 < columnCount catalog (visibleBindings frames)
            (toLowercase info.1) →
          ∀ owner ∈ bindingQualifier binding,
            ∀ source ∈ (answering frames).find?
                (·.matchesQualifier owner),
              source.columns = [] ∨
                (source.columnHits info.1 catalog).length = 1 := by
  rw [columns]
  simp only [List.forall_mem_flatMap, List.mem_filterMap]
  constructor
  · intro hresolves binding hbinding column hcolumn info hinfo hmany owner
      howner source hsource
    obtain ⟨name, ty⟩ := info
    have hcandidate := hresolves binding hbinding _
      ⟨column, hcolumn, by
        rw [columnCandidate, Option.mem_def.1 hinfo]
        simp only [if_neg (Nat.not_le.2 hmany), Option.mem_def.1 howner]
        rfl⟩
    exact (resolves_qualified_iff rfl (Option.mem_def.1 hsource)).1 hcandidate
  · rintro hfirst binding hbinding candidate ⟨column, hcolumn, hcandidate⟩
    rw [columnCandidate] at hcandidate
    split at hcandidate
    · cases hcandidate
    · next name ty hinfo =>
        simp only at hcandidate
        split at hcandidate
        · next hfew =>
            obtain rfl := Option.some.inj hcandidate
            have hpos := columnCount_pos hbinding hcolumn hinfo
            exact resolves_bare h rfl (Nat.le_antisymm hfew hpos)
        · next hmany =>
            split at hcandidate
            · next owner howner =>
                obtain rfl := Option.some.inj hcandidate
                obtain ⟨source, hsource⟩ := exists_answer hbinding howner
                exact (resolves_qualified_iff rfl hsource).2
                  (hfirst binding hbinding column hcolumn (name, ty) hinfo
                    (Nat.lt_of_not_le hmany) owner howner source hsource)
            · cases hcandidate

end

/-! ## A column that is exposed twice -/

section Sample

local instance asciiColumns : Unicode := Unicode.ascii

/-- A source `users` with the column of the catalog. -/
def usersBinding : Binding :=
  { «alias» := none, name := some "users".toList
    schema := some "public".toList, object := some 0, columns := [.catalog 1]
    range := ⟨0, 0⟩ }

/-- A subquery `d` with the columns that its select list names. -/
def derivedBinding (names : List Text) : Binding :=
  { «alias» := some "d".toList, name := none, schema := none, object := none
    columns := names.map fun name => .local name none
    range := ⟨0, 0⟩ }

/-- In `from (select id, id from users) d, users` the candidate `d.id` is
ambiguous. -/
theorem columns_ambiguous :
    ¬∀ candidate ∈ columns usersCatalog
        [⟨[], [derivedBinding ["id".toList, "id".toList], usersBinding]⟩],
      candidate.Resolves usersCatalog
        [⟨[], [derivedBinding ["id".toList, "id".toList], usersBinding]⟩] := by
  intro h
  have hresolves := h
    { label := "d.id".toList, insert := "d.id".toList, kind := .column
      detail := "d".toList, weight := 480 }
    (by decide +kernel) [("d".toList, ⟨0, 1⟩), ("id".toList, ⟨2, 4⟩)]
    (by decide +kernel)
  revert hresolves
  decide +kernel

/-- In `from (select id, name from users) d, users` all candidates resolve. -/
theorem columns_resolve_derived :
    columns usersCatalog
        [⟨[], [derivedBinding ["id".toList, "name".toList],
          usersBinding]⟩] ≠ [] ∧
      ∀ candidate ∈ columns usersCatalog
          [⟨[], [derivedBinding ["id".toList, "name".toList],
            usersBinding]⟩],
        candidate.Resolves usersCatalog
          [⟨[], [derivedBinding ["id".toList, "name".toList],
            usersBinding]⟩] :=
  ⟨by decide +kernel,
    (columns_resolve_iff usersCatalog
      [⟨[], [derivedBinding ["id".toList, "name".toList], usersBinding]⟩]
      (by decide +kernel)).2 (by decide +kernel)⟩

end Sample

end Tempr.Intel
