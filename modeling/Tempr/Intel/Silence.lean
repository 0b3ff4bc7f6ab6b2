import Tempr.Intel.Reached

/-!
# When the analysis is silent

Without a catalog the analysis reports syntax errors only. With one, a bare
column reference is reported as unknown although a source without column
knowledge is visible to it, namely when another source has columns and none of
them has the name.
-/

namespace Tempr.Intel

open Tempr.Support Tempr.Services
open Tempr.Editor (ByteRange)

section

variable {Id : Type} [DecidableEq Id] [Unicode]

/-! ## Silence without a catalog -/

theorem Walker.resolveField_of_not_loaded {w : Walker Id}
    (h : w.loaded = false) (field : Node) (frames : List Frame) :
    w.resolveField field frames = none := by
  simp [resolveField, h]

omit [DecidableEq Id] [Unicode] in
theorem Walker.sourceDiagnostic_of_not_loaded {w : Walker Id}
    (h : w.loaded = false) (source : Source) :
    w.sourceDiagnostic source = none := by
  cases hs : source.unresolved <;> simp [sourceDiagnostic, hs, h]

/-- Every kind of event but a syntax error is silent without a catalog. -/
theorem Walker.diagnose_of_not_loaded {w : Walker Id} (h : w.loaded = false)
    {e : Event} {d : Diagnostic} (hd : w.diagnose e = some d) :
    d.kind = .syntaxError := by
  cases e with
  | syntaxError node =>
      obtain rfl := Option.some.inj hd
      rfl
  | bound source =>
      rw [diagnose, sourceDiagnostic_of_not_loaded h] at hd
      cases hd
  | resolve field levels =>
      rw [diagnose, resolveField_of_not_loaded h] at hd
      cases hd

/-- With a catalog that holds no relations every diagnostic of the analysis is a
syntax error. -/
theorem Walker.syntaxError_of_no_relations (w : Walker Id)
    (hcatalog : w.catalog.nRelations = 0) (root : Node) :
    ∀ d ∈ (w.analyzeNow root).diagnostics, d.kind = .syntaxError := by
  intro d hd
  have hloaded : w.loaded = false := by
    simp [Walker.loaded, hcatalog]
  obtain ⟨e, -, he⟩ := mem_diagnostics_iff.1 hd
  exact diagnose_of_not_loaded hloaded he

/-! ## Bare references -/

/-- A column reference without a qualifier, and the levels it is resolved in. -/
structure BareReference where
  name : Text
  range : ByteRange
  levels : List Level
  deriving DecidableEq, Repr

namespace BareReference

/-- The sources visible to the reference, also those that bind nothing. -/
def sources (r : BareReference) : List Source :=
  r.levels.flatMap Level.sources

/-- The sources that bind. -/
def bindings (r : BareReference) : List Binding :=
  r.levels.flatMap fun level => level.frame.bindings

end BareReference

/-- The bare reference that an event resolves. -/
def Walker.bareReference (w : Walker Id) : Event → Option BareReference
  | .resolve field levels =>
      match w.identifierParts field with
      | [(name, range)] => some ⟨name, range, levels⟩
      | _ => none
  | _ => none

/-- Nothing is known of the columns of the source: it binds nothing, or a source
with no columns. -/
def Source.unknown (source : Source) : Bool :=
  source.binding.all fun binding => binding.columns.isEmpty

omit [DecidableEq Id] in
theorem bareHits_eq_nil_iff {catalog : CatalogCache Id} {name : Text}
    {frame : Frame} :
    bareHits catalog name frame = [] ↔
      ∀ binding ∈ frame.bindings, binding.columnHits name catalog = [] := by
  rw [bareHits, List.map_eq_nil_iff, List.filter_eq_nil_iff]
  constructor
  · intro h binding hbinding
    by_contra hhits
    have hcolumns : binding.columns ≠ [] := by
      intro hnil
      exact hhits (by simp [Binding.columnHits, hnil])
    exact h binding hbinding (by simp [hcolumns, hhits])
  · intro h binding hbinding
    simp [h binding hbinding]

omit [DecidableEq Id] in
/-- A bare reference is unknown where some visible source has columns and none
has one of the name. -/
theorem resolveBare_unknownColumn_iff (catalog : CatalogCache Id)
    (name : Text) (range : ByteRange) (anyColumns : Bool)
    (frames : List Frame) :
    (∃ d, resolveBare catalog name range anyColumns frames = some d ∧
        d.kind = .unknownColumn) ↔
      (anyColumns = true ∨ ∃ frame ∈ frames, frame.anyColumns = true) ∧
        ∀ frame ∈ frames, bareHits catalog name frame = [] := by
  induction frames generalizing anyColumns with
  | nil =>
      rw [resolveBare]
      cases anyColumns <;> simp [Diagnostic.new]
  | cons frame frames ih =>
      rw [resolveBare]
      split
      · next hnil =>
          rw [ih]
          simp [hnil, or_assoc]
      · next hone => simp [hone]
      · next hnil hone =>
          simp only [List.forall_mem_cons]
          constructor
          · rintro ⟨d, hd, hkind⟩
            obtain rfl := Option.some.inj hd
            cases hkind
          · rintro ⟨-, hhits, -⟩
            exact absurd hhits hnil

omit [Unicode] in
theorem BareReference.exists_anyColumns_iff {r : BareReference} :
    (∃ frame ∈ r.levels.map Level.frame, frame.anyColumns = true) ↔
      ∃ binding ∈ r.bindings, binding.columns ≠ [] := by
  simp only [bindings, List.mem_map, List.mem_flatMap, Frame.anyColumns,
    List.any_eq_true, Bool.not_eq_true', List.isEmpty_eq_false_iff]
  constructor
  · rintro ⟨_, ⟨level, hlevel, rfl⟩, binding, hbinding, hcolumns⟩
    exact ⟨binding, ⟨level, hlevel, hbinding⟩, hcolumns⟩
  · rintro ⟨binding, ⟨level, hlevel, hbinding⟩, hcolumns⟩
    exact ⟨_, ⟨level, hlevel, rfl⟩, binding, hbinding, hcolumns⟩

omit [DecidableEq Id] in
theorem BareReference.forall_bareHits_iff {catalog : CatalogCache Id}
    {r : BareReference} :
    (∀ frame ∈ r.levels.map Level.frame,
        bareHits catalog r.name frame = []) ↔
      ∀ binding ∈ r.bindings, binding.columnHits r.name catalog = [] := by
  simp only [bindings, List.mem_flatMap, bareHits_eq_nil_iff]
  constructor
  · rintro h binding ⟨level, hlevel, hbinding⟩
    exact h _ (List.mem_map_of_mem hlevel) binding hbinding
  · intro h frame hframe binding hbinding
    obtain ⟨level, hlevel, rfl⟩ := List.mem_map.1 hframe
    exact h binding ⟨level, hlevel, hbinding⟩

namespace Walker

variable {w : Walker Id} {root : Node}

/-- A bare reference is resolved in the frames of its levels. -/
theorem diagnose_of_bareReference {e : Event} {r : BareReference}
    (hloaded : w.loaded = true) (h : w.bareReference e = some r) :
    w.diagnose e =
      resolveBare w.catalog r.name r.range false
        (r.levels.map Level.frame) := by
  cases e with
  | resolve field levels =>
      rw [bareReference] at h
      split at h
      · next name range hparts =>
          obtain rfl := Option.some.inj h
          simp [diagnose, resolveField, hloaded, hparts, resolveReference]
      · cases h
  | syntaxError node => cases h
  | bound source => cases h

theorem unknownColumn_iff {e : Event} {r : BareReference}
    (hloaded : w.loaded = true) (h : w.bareReference e = some r) :
    (∃ d ∈ w.diagnose e, d.kind = .unknownColumn) ↔
      (∃ binding ∈ r.bindings, binding.columns ≠ []) ∧
        ∀ binding ∈ r.bindings, binding.columnHits r.name w.catalog = [] := by
  rw [← BareReference.exists_anyColumns_iff,
    ← BareReference.forall_bareHits_iff, diagnose_of_bareReference hloaded h]
  have hiff := resolveBare_unknownColumn_iff w.catalog r.name r.range false
    (r.levels.map Level.frame)
  simpa using hiff

/-- No bare reference is unknown beside a source without column knowledge if and
only if, wherever such a source is visible to one, no visible source has columns
or one has a column of the name. -/
theorem no_unknownColumn_iff (w : Walker Id) (hloaded : w.loaded = true)
    (root : Node) :
    (∀ e ∈ w.events root, ∀ r ∈ w.bareReference e,
        (∃ source ∈ r.sources, source.unknown = true) →
          ∀ d ∈ w.diagnose e, d.kind ≠ .unknownColumn) ↔
      ∀ e ∈ w.events root, ∀ r ∈ w.bareReference e,
        (∃ source ∈ r.sources, source.unknown = true) →
          (∀ binding ∈ r.bindings, binding.columns = []) ∨
            ∃ binding ∈ r.bindings,
              binding.columnHits r.name w.catalog ≠ [] := by
  refine forall₂_congr fun e _ => forall₂_congr fun r hr =>
    imp_congr_right fun _ => ?_
  have hiff := not_congr (unknownColumn_iff hloaded (Option.mem_def.1 hr))
  push Not at hiff
  rw [hiff]
  constructor
  · intro h
    by_cases hcolumns : ∃ binding ∈ r.bindings, binding.columns ≠ []
    · exact .inr (h hcolumns)
    · push Not at hcolumns
      exact .inl hcolumns
  · rintro (hnone | hhit) hcolumns
    · obtain ⟨binding, hbinding, hne⟩ := hcolumns
      exact absurd (hnone binding hbinding) hne
    · exact hhit

end Walker

end

/-! ## A relation that does not exist beside one that does -/

section Sample

local instance asciiSilence : Unicode := Unicode.ascii

/-- A relation `users` with the column `id`. -/
def usersCatalog : CatalogCache ℕ :=
  .fromSnapshot
    { id := ⟨"s"⟩, connectionId := ⟨"c"⟩, version := 1
      objects :=
        [.table 1 "public" "users" none,
          .column 2 1 "id" "int8" false 0 none]
      keywords := [], fingerprints := [] }

/-- A catalog with nothing in it. -/
def emptyCatalog : CatalogCache ℕ :=
  .fromSnapshot
    { id := ⟨"s"⟩, connectionId := ⟨"c"⟩, version := 1, objects := []
      keywords := [], fingerprints := [] }

/-- `select x from users, nosuch` -/
def besideNosuch : Node :=
  .node (.other "program") 0 27
    [.node .statement 0 27
      [.node .select 0 8
        [.leaf (.keyword "select") 0 6,
          .node .selectExpression 7 8
            [.node .term 7 8
              [.node .field 7 8 [.leaf .identifier 7 8]]]],
        .node .fromClause 9 27
          [.leaf (.keyword "from") 9 13,
            .node .relation 14 19
              [.node .objectReference 14 19 [.leaf .identifier 14 19]],
            .leaf .comma 19 20,
            .node .relation 21 27
              [.node .objectReference 21 27 [.leaf .identifier 21 27]]]]]

def besideNosuchText : Text :=
  "select x from users, nosuch".toList

/-- The unknown relation could have the column `x`, but `x` is reported. -/
theorem unknownColumn_beside_nosuch :
    ¬∀ e ∈ Walker.events ⟨besideNosuchText, usersCatalog⟩ besideNosuch,
      ∀ r ∈ Walker.bareReference ⟨besideNosuchText, usersCatalog⟩ e,
        (∃ source ∈ r.sources, source.unknown = true) →
          ∀ d ∈ Walker.diagnose ⟨besideNosuchText, usersCatalog⟩ e,
            d.kind ≠ .unknownColumn := by
  decide +kernel

theorem no_unknownColumn_iff_nosuch :
    (¬∀ e ∈ Walker.events ⟨besideNosuchText, usersCatalog⟩ besideNosuch,
      ∀ r ∈ Walker.bareReference ⟨besideNosuchText, usersCatalog⟩ e,
        (∃ source ∈ r.sources, source.unknown = true) →
          (∀ binding ∈ r.bindings, binding.columns = []) ∨
            ∃ binding ∈ r.bindings,
              binding.columnHits r.name usersCatalog ≠ []) := by
  rw [← Walker.no_unknownColumn_iff ⟨besideNosuchText, usersCatalog⟩
    (by decide +kernel) besideNosuch]
  decide +kernel

theorem syntaxError_of_no_relations_nosuch :
    (∃ d ∈ (Walker.analyzeNow ⟨besideNosuchText, usersCatalog⟩
        besideNosuch).diagnostics, d.kind ≠ .syntaxError) ∧
      ∀ d ∈ (Walker.analyzeNow ⟨besideNosuchText, emptyCatalog⟩
        besideNosuch).diagnostics, d.kind = .syntaxError :=
  ⟨by decide +kernel,
    Walker.syntaxError_of_no_relations ⟨besideNosuchText, emptyCatalog⟩
      (by decide +kernel) besideNosuch⟩

end Sample

end Tempr.Intel
