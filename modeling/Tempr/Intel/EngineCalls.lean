import Tempr.Intel.Requests
import Tempr.Intel.Silence
import Tempr.Support.Transition

/-!
# Concurrent calls of the engine

Any number of `analyzed`, `analyzed_at` and `set_catalog` calls go on at once on
one engine. A step is a lock section of one of them, or the analysis that a call
makes of its own text without a lock. So a catalog may be replaced, and the cache
cleared, between any two steps of a call.
-/

namespace Tempr.Intel.EngineCalls

open Tempr.Support

section Engine

variable {Id : Type}

/-! ## Calls -/

/-- An analysis that is asked for: of a whole text, or for one offset. -/
structure Query where
  file : SqlFileId
  revision : ℕ
  text : Text
  offset : Option ℕ

inductive Request
  | analyze (query : Query)
  | setCatalog (catalog : CatalogAddress)

/-- Where a call stands: what it does next. -/
inductive Phase
  /-- read the catalog of the engine -/
  | reading (query : Query)
  /-- look into the cache -/
  | lookingUp (query : Query) (catalog : CatalogAddress)
  /-- analyse the text -/
  | computing (query : Query) (catalog : CatalogAddress)
  /-- insert in the cache -/
  | inserting (query : Query) (catalog : CatalogAddress) (analysis : Analysis)
  /-- the call has returned an analysis, and the catalog that it used -/
  | answered (query : Query) (catalog : CatalogAddress) (analysis : Analysis)
  /-- `set_catalog`: write the catalog of the engine -/
  | writing (catalog : CatalogAddress)
  /-- `set_catalog`: clear the cache -/
  | clearing
  | finished

structure State (Id : Type) where
  /-- the catalogs that have been made, by their addresses -/
  catalogs : List (CatalogCache Id)
  engine : SemanticEngine
  calls : ℕ → Option Phase

inductive Action (Id : Type)
  /-- a caller makes a catalog -/
  | newCatalog (catalog : CatalogCache Id)
  | start (i : ℕ) (request : Request)
  /-- the next step of a call; the cache may list `oldest` first -/
  | step (i : ℕ) (oldest : SqlFileId)

def State.goto (s : State Id) (i : ℕ) (phase : Phase) : State Id :=
  { s with calls := Function.update s.calls i (some phase) }

/-! ## Steps -/

variable [Unicode] [DecidableEq Id] (parse : Text → Option Node)

/-- What follows the analysis of the text: an analysis for one offset is not
cached. -/
def computed (query : Query) (catalog : CatalogAddress)
    (cache : CatalogCache Id) : Phase :=
  match query.offset with
  | none =>
      .inserting query catalog (analysisOf parse query.text cache)
  | some offset =>
      .answered query catalog (regionAnalysisOf parse query.text cache offset)

/-- The next step of a call. -/
def callStep (s : State Id) (i : ℕ) (oldest : SqlFileId) :
    Phase → Option (State Id)
  | .reading query => some (s.goto i (.lookingUp query s.engine.catalog))
  | .lookingUp query catalog =>
      match s.engine.lookup query.file query.revision catalog with
      | some analysis => some (s.goto i (.answered query catalog analysis))
      | none => some (s.goto i (.computing query catalog))
  | .computing query catalog =>
      match s.catalogs[catalog]? with
      | some cache => some (s.goto i (computed parse query catalog cache))
      | none => none
  | .inserting query catalog analysis =>
      if s.engine.mayRemove oldest then
        let engine := s.engine.insert oldest query.file
          ⟨query.revision, catalog, analysis⟩
        some ({ s with engine }.goto i (.answered query catalog analysis))
      else none
  | .writing catalog =>
      some ({ s with engine := { s.engine with catalog } }.goto i .clearing)
  | .clearing =>
      some ({ s with engine := { s.engine with analyses := ∅ } }.goto i
        .finished)
  | .answered _ _ _ => none
  | .finished => none

omit [Unicode] [DecidableEq Id] parse in
/-- Where a call begins. A catalog is set that has been made. -/
def firstPhase (s : State Id) : Request → Option Phase
  | .analyze query => some (.reading query)
  | .setCatalog catalog =>
      if catalog < s.catalogs.length then some (.writing catalog) else none

def next (s : State Id) : Action Id → Option (State Id)
  | .newCatalog catalog => some { s with catalogs := s.catalogs ++ [catalog] }
  | .start i request =>
      match s.calls i with
      | none => (firstPhase s request).map (s.goto i)
      | some _ => none
  | .step i oldest => (s.calls i).bind (callStep parse s i oldest)

omit [Unicode] [DecidableEq Id] parse in
/-- An engine that has just been made, over a catalog. -/
structure Fresh (s : State Id) : Prop where
  catalog : s.engine.catalog < s.catalogs.length
  cache : s.engine.analyses = ∅
  calls : ∀ i, s.calls i = none

/-- The engine under any interleaving of its calls. -/
def system : System (State Id) (Action Id) :=
  .ofNext Fresh (next parse)

omit [Unicode] [DecidableEq Id] parse in
/-- Every revision of a file has one text. -/
def Action.GivesText (texts : SqlFileId → ℕ → Text) : Action Id → Prop
  | .start _ (.analyze query) => query.text = texts query.file query.revision
  | _ => True

/-! ## What calls return -/

/-- The answer to a query under a catalog: the analysis of its text or, for an
offset, the analysis for this offset. -/
def Answers (query : Query) (cache : CatalogCache Id) (analysis : Analysis) :
    Prop :=
  analysis = analysisOf parse query.text cache ∨
    ∃ offset, query.offset = some offset ∧
      analysis = regionAnalysisOf parse query.text cache offset

section Invariant

variable (texts : SqlFileId → ℕ → Text)

/-- The analysis of the text of a revision under the catalog at an address. -/
def Computed (s : State Id) (file : SqlFileId) (revision : ℕ)
    (catalog : CatalogAddress) (analysis : Analysis) : Prop :=
  ∃ cache, s.catalogs[catalog]? = some cache ∧
    analysis = analysisOf parse (texts file revision) cache

/-- What holds of a call where it stands. -/
def Sound (s : State Id) : Phase → Prop
  | .reading query => query.text = texts query.file query.revision
  | .lookingUp query _ => query.text = texts query.file query.revision
  | .computing query _ => query.text = texts query.file query.revision
  | .inserting query catalog analysis =>
      query.text = texts query.file query.revision ∧
        Computed parse texts s query.file query.revision catalog analysis
  | .answered query catalog analysis =>
      ∃ cache, s.catalogs[catalog]? = some cache ∧
        Answers parse query cache analysis
  | .writing catalog => catalog < s.catalogs.length
  | .clearing => True
  | .finished => True

structure Invariant (s : State Id) : Prop where
  catalog : s.engine.catalog < s.catalogs.length
  cached : ∀ {file cached}, s.engine.analyses.lookup file = some cached →
    Computed parse texts s file cached.revision cached.catalog cached.analysis
  size : s.engine.analyses.entries.length ≤ analysisCacheMax
  calls : ∀ {i phase}, s.calls i = some phase → Sound parse texts s phase

variable {parse texts} {s t : State Id}

omit [Unicode] [DecidableEq Id] in
/-- Catalogs that have been made stay where they are. -/
theorem catalog_mono (hcatalogs : s.catalogs <+: t.catalogs)
    {catalog : CatalogAddress} {cache : CatalogCache Id}
    (h : s.catalogs[catalog]? = some cache) :
    t.catalogs[catalog]? = some cache := by
  obtain ⟨hlt, hcache⟩ := List.getElem?_eq_some_iff.1 h
  rw [List.prefix_iff_getElem?.1 hcatalogs catalog hlt, hcache]

theorem Computed.mono {file : SqlFileId} {revision : ℕ}
    {catalog : CatalogAddress} {analysis : Analysis}
    (hcatalogs : s.catalogs <+: t.catalogs)
    (h : Computed parse texts s file revision catalog analysis) :
    Computed parse texts t file revision catalog analysis := by
  obtain ⟨cache, hcache, hanalysis⟩ := h
  exact ⟨cache, catalog_mono hcatalogs hcache, hanalysis⟩

theorem Sound.mono {phase : Phase} (hcatalogs : s.catalogs <+: t.catalogs)
    (h : Sound parse texts s phase) : Sound parse texts t phase := by
  cases phase with
  | inserting query catalog analysis => exact ⟨h.1, h.2.mono hcatalogs⟩
  | answered query catalog analysis =>
      obtain ⟨cache, hcache, hanswers⟩ := h
      exact ⟨cache, catalog_mono hcatalogs hcache, hanswers⟩
  | writing catalog => exact Nat.lt_of_lt_of_le h hcatalogs.length_le
  | _ => exact h

/-- A step of call `i` that makes no catalog. -/
theorem Invariant.goto (h : Invariant parse texts s) {i : ℕ} {phase : Phase}
    (hcatalogs : t.catalogs = s.catalogs) (hcalls : t.calls = s.calls)
    (hcatalog : t.engine.catalog < t.catalogs.length)
    (hcached : ∀ {file cached}, t.engine.analyses.lookup file = some cached →
      Computed parse texts s file cached.revision cached.catalog
        cached.analysis)
    (hsize : t.engine.analyses.entries.length ≤ analysisCacheMax)
    (hphase : Sound parse texts s phase) :
    Invariant parse texts (t.goto i phase) := by
  have hprefix : s.catalogs <+: (t.goto i phase).catalogs :=
    hcatalogs.symm ▸ List.prefix_rfl
  refine ⟨hcatalog, fun hlookup => (hcached hlookup).mono hprefix, hsize, ?_⟩
  intro k phase' hk
  by_cases hki : k = i
  · subst hki
    simp only [State.goto, Function.update_self] at hk
    obtain rfl := Option.some.inj hk
    exact hphase.mono hprefix
  · simp only [State.goto, Function.update_of_ne hki, hcalls] at hk
    exact (h.calls hk).mono hprefix

/-- Every step of a call keeps what the cache holds and what calls return. -/
theorem Invariant.callStep (h : Invariant parse texts s) {i : ℕ}
    {oldest : SqlFileId} {phase : Phase} (hi : s.calls i = some phase)
    (hstep : callStep parse s i oldest phase = some t) :
    Invariant parse texts t := by
  have hsound := h.calls hi
  cases phase with
  | reading query =>
      obtain rfl := Option.some.inj hstep
      exact h.goto rfl rfl h.catalog h.cached h.size hsound
  | lookingUp query catalog =>
      rw [EngineCalls.callStep] at hstep
      split at hstep
      · next analysis hlookup =>
          obtain rfl := Option.some.inj hstep
          refine h.goto rfl rfl h.catalog h.cached h.size ?_
          obtain ⟨cache, hcache, hanalysis⟩ :=
            h.cached (SemanticEngine.lookup_eq_some hlookup)
          have htext : query.text = texts query.file query.revision := hsound
          refine ⟨cache, hcache, .inl ?_⟩
          rw [htext]
          exact hanalysis
      · obtain rfl := Option.some.inj hstep
        exact h.goto rfl rfl h.catalog h.cached h.size hsound
  | computing query catalog =>
      rw [EngineCalls.callStep] at hstep
      split at hstep
      · next cache hcache =>
          obtain rfl := Option.some.inj hstep
          have htext : query.text = texts query.file query.revision := hsound
          refine h.goto rfl rfl h.catalog h.cached h.size ?_
          rw [computed]
          split
          · exact ⟨htext, cache, hcache, by rw [htext]⟩
          · next offset hoffset =>
              exact ⟨cache, hcache, .inr ⟨offset, hoffset, rfl⟩⟩
      · cases hstep
  | inserting query catalog analysis =>
      rw [EngineCalls.callStep] at hstep
      split at hstep
      · next hoff =>
          obtain rfl := Option.some.inj hstep
          obtain ⟨htext, hcomputed⟩ := hsound
          refine h.goto (t := { s with engine := s.engine.insert _ _ _ }) rfl
            rfl h.catalog ?_
            (SemanticEngine.length_insert_le hoff h.size _ _) ?_
          · intro file cached hlookup
            rcases SemanticEngine.lookup_insert hlookup with ⟨rfl, rfl⟩ | hold
            · exact hcomputed
            · exact h.cached hold
          · obtain ⟨cache, hcache, hanalysis⟩ := hcomputed
            exact ⟨cache, hcache, .inl (by rw [htext, hanalysis])⟩
      · cases hstep
  | writing catalog =>
      obtain rfl := Option.some.inj hstep
      exact h.goto (t := { s with engine := { s.engine with catalog } }) rfl rfl
        hsound h.cached h.size trivial
  | clearing =>
      obtain rfl := Option.some.inj hstep
      refine h.goto (t := { s with engine := { s.engine with analyses := ∅ } })
        rfl rfl h.catalog ?_ (Nat.zero_le _) trivial
      intro file cached hlookup
      cases hlookup
  | answered query catalog analysis => cases hstep
  | finished => cases hstep

theorem Invariant.next (h : Invariant parse texts s) {a : Action Id}
    (hgives : a.GivesText texts) (hstep : next parse s a = some t) :
    Invariant parse texts t := by
  cases a with
  | newCatalog catalog =>
      obtain rfl := Option.some.inj hstep
      have hprefix : s.catalogs <+: s.catalogs ++ [catalog] :=
        List.prefix_append _ _
      exact ⟨Nat.lt_of_lt_of_le h.catalog hprefix.length_le,
        fun hlookup => (h.cached hlookup).mono hprefix, h.size,
        fun hi => (h.calls hi).mono hprefix⟩
  | start i request =>
      rw [EngineCalls.next] at hstep
      split at hstep
      · obtain ⟨phase, hphase, rfl⟩ := Option.map_eq_some_iff.1 hstep
        refine h.goto rfl rfl h.catalog h.cached h.size ?_
        cases request with
        | analyze query =>
            obtain rfl := Option.some.inj hphase
            exact hgives
        | setCatalog catalog =>
            rw [firstPhase] at hphase
            split at hphase
            · next hlt =>
                obtain rfl := Option.some.inj hphase
                exact hlt
            · cases hphase
      · cases hstep
  | step i oldest =>
      obtain ⟨phase, hi, hcall⟩ := Option.bind_eq_some_iff.1 hstep
      exact h.callStep hi hcall

theorem invariant_of_reachable
    (h : ((system parse).restrict fun _ a => a.GivesText texts).Reachable s) :
    Invariant parse texts s := by
  refine h.invariant ?_ fun _ _ _ hstep hs => hs.next hstep.2 hstep.1
  rintro s ⟨hcatalog, hcache, hcalls⟩
  refine ⟨hcatalog, ?_, ?_, ?_⟩
  · intro file cached hlookup
    rw [hcache] at hlookup
    cases hlookup
  · rw [hcache]
    exact Nat.zero_le _
  · intro i phase hi
    rw [hcalls i] at hi
    cases hi

end Invariant

variable {parse}

/-- Whatever the interleaving, a call returns the analysis of its own text under
the catalog that it returns, for an offset perhaps the analysis for that offset;
and the cache stays within its bound. -/
theorem answers_of_reachable {texts : SqlFileId → ℕ → Text} {s : State Id}
    (h : ((system parse).restrict fun _ a => a.GivesText texts).Reachable s) :
    (∀ {i query catalog analysis},
      s.calls i = some (.answered query catalog analysis) →
        ∃ cache, s.catalogs[catalog]? = some cache ∧
          Answers parse query cache analysis) ∧
      s.engine.analyses.entries.length ≤ analysisCacheMax :=
  ⟨fun hi => (invariant_of_reachable h).calls hi,
    (invariant_of_reachable h).size⟩

end Engine

section Sample

local instance asciiCalls : Unicode := Unicode.ascii

def besideNosuchQuery : Query :=
  ⟨⟨"f"⟩, 7, besideNosuchText, none⟩

def givesBesideNosuch (_ : State ℕ) : Action ℕ → Bool
  | .start _ (.analyze query) => decide (query.text = besideNosuchText)
  | _ => true

/-- A catalog is replaced while a call analyses its text. -/
def replacedMeanwhile : List (Action ℕ) :=
  [.newCatalog emptyCatalog, .start 0 (.analyze besideNosuchQuery),
    .step 0 ⟨""⟩, .step 0 ⟨""⟩, .step 0 ⟨""⟩, .start 1 (.setCatalog 1),
    .step 1 ⟨""⟩, .step 1 ⟨""⟩, .step 0 ⟨""⟩]

theorem answers_of_reachable_replaced :
    ∃ s : State ℕ, s.engine.catalog = 1 ∧ (s.calls 0).any (fun phase =>
        phase matches .answered _ 0 _) = true ∧
      (∀ {i query catalog analysis},
        s.calls i = some (.answered query catalog analysis) →
          ∃ cache, s.catalogs[catalog]? = some cache ∧
            Answers (fun _ => some besideNosuch) query cache analysis) ∧
      s.engine.analyses.entries.length ≤ analysisCacheMax := by
  let parse : Text → Option Node := fun _ => some besideNosuch
  let fresh : State ℕ := ⟨[usersCatalog], ⟨0, ∅⟩, fun _ => none⟩
  have hend : (System.follow (System.guarded (next parse) givesBesideNosuch)
      fresh replacedMeanwhile).map (fun s => (s.engine.catalog,
        (s.calls 0).any fun phase => phase matches .answered _ 0 _)) =
      some (1, true) := by decide +kernel +revert
  have hfresh : Fresh fresh := ⟨Nat.one_pos, rfl, fun _ => rfl⟩
  obtain ⟨s, hs, houtcome⟩ := Option.map_eq_some_iff.1 hend
  obtain ⟨hcatalog, hanswered⟩ := Prod.mk.inj houtcome
  have hrun : ((system parse).restrict fun _ a =>
      a.GivesText fun _ _ => besideNosuchText).Run fresh replacedMeanwhile s := by
    refine System.run_of_follow ?_ hs
    intro s a t h
    unfold System.guarded at h
    split at h
    · next hgives =>
        refine ⟨h, ?_⟩
        cases a with
        | start i request =>
            cases request with
            | analyze query =>
                exact of_decide_eq_true (p := query.text = besideNosuchText)
                  hgives
            | setCatalog catalog => trivial
        | _ => trivial
    · cases h
  exact ⟨s, hcatalog, hanswered,
    answers_of_reachable ⟨fresh, _, hfresh, hrun⟩⟩

end Sample

end Tempr.Intel.EngineCalls
