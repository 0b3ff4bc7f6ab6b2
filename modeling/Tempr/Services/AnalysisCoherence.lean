import Tempr.Intel.Silence
import Tempr.Services.AnalysisRevisions

/-!
# Stored analyses belong to the catalog

A swap writes the catalog, adds one to the generation and then clears the stored
analyses. An analysis that was made of an older catalog is therefore dropped
when it finds that the generation has changed, or is stored before the last of
the swaps since clears what is stored.
-/

namespace Tempr.Services.Analyses

open Tempr.Support Tempr.Intel Tempr.Editor

variable {Id : Type}

/-! ## Swaps under way -/

/-- A swap has written the catalog of the engine, and not yet added one to the
generation. -/
def SwapPhase.isUnbumped : SwapPhase Id → Bool
  | .clearingCache _ => true
  | .bumping _ => true
  | _ => false

/-- A swap has written the catalog of the engine, and not yet cleared the stored
analyses. -/
def SwapPhase.isReplacing : SwapPhase Id → Bool
  | .clearingCache _ => true
  | .bumping _ => true
  | .clearing _ => true
  | _ => false

def Unbumped (s : State Id) : Prop :=
  ∃ i phase, s.swaps i = some phase ∧ phase.isUnbumped = true

def Replacing (s : State Id) : Prop :=
  ∃ i phase, s.swaps i = some phase ∧ phase.isReplacing = true

theorem SwapPhase.isReplacing_of_isUnbumped {phase : SwapPhase Id}
    (h : phase.isUnbumped = true) : phase.isReplacing = true := by
  cases phase with
  | clearingCache id => rfl
  | bumping id => rfl
  | _ => cases h

/-- A catalog read after `generation` was loaded is still the engine's, or will
be found to be outdated. -/
def Current (s : State Id) (generation : ℕ) (catalog : CatalogAddress) : Prop :=
  catalog = s.engine.catalog ∨ Unbumped s ∨ generation < s.catalogGeneration

/-- A catalog is still the engine's, or what is stored will be cleared. -/
def Passing (s : State Id) (catalog : CatalogAddress) : Prop :=
  catalog = s.engine.catalog ∨ Replacing s

/-- At the generation that was loaded, an outdated catalog is being replaced. -/
theorem Current.passing {s : State Id} {catalog : CatalogAddress}
    (h : Current s s.catalogGeneration catalog) : Passing s catalog := by
  rcases h with heq | ⟨i, phase, hi, hphase⟩ | hlt
  · exact .inl heq
  · exact .inr ⟨i, phase, hi, SwapPhase.isReplacing_of_isUnbumped hphase⟩
  · exact absurd hlt (Nat.lt_irrefl _)

/-! ## The invariant -/

section Invariant

variable [Unicode] [DecidableEq Id] (parse : Text → Option Node)
  (texts : SqlFileId → ℕ → Text)

/-- An analysis of the text of a revision under the catalog at an address. -/
def Computed (s : State Id) (file : SqlFileId) (revision : ℕ)
    (catalog : CatalogAddress) (analysis : Analysis) : Prop :=
  ∃ cache, s.catalogs[catalog]? = some cache ∧
    analysis = analysisOf parse (texts file revision) cache

omit [Unicode] [DecidableEq Id] parse in
/-- Call `i` holds the lock of the mirrors, and the mirror has its text. -/
def HoldsMirror (s : State Id) (i : ℕ) (call : AnalyzeCall) : Prop :=
  s.mirroring = some i ∧ ∃ buffer, s.mirrors call.file = some buffer ∧
    buffer.rope = texts call.file call.revision

/-- What holds of an `analyze` call where it stands. -/
def Sound (s : State Id) (i : ℕ) (call : AnalyzeCall) : Prop :=
  match call.phase with
  | .mirroring generation => generation ≤ s.catalogGeneration
  | .reading generation =>
      generation ≤ s.catalogGeneration ∧ HoldsMirror texts s i call
  | .lookingUp generation catalog =>
      generation ≤ s.catalogGeneration ∧ HoldsMirror texts s i call ∧
        Current s generation catalog
  | .caching generation catalog =>
      generation ≤ s.catalogGeneration ∧ HoldsMirror texts s i call ∧
        Current s generation catalog
  | .rechecking generation analysis =>
      generation ≤ s.catalogGeneration ∧
        ∃ catalog, Computed parse texts s call.file call.revision catalog
          analysis ∧ Current s generation catalog
  | .locking generation analysis =>
      generation ≤ s.catalogGeneration ∧
        ∃ catalog, Computed parse texts s call.file call.revision catalog
          analysis ∧ Current s generation catalog
  | .storing analysis =>
      s.storing = some i ∧
        ∃ catalog, Computed parse texts s call.file call.revision catalog
          analysis ∧ Passing s catalog
  | _ => True

structure Coherent (s : State Id) : Prop where
  given : ∀ i call, s.calls i = some call →
    call.text = texts call.file call.revision
  calls : ∀ i call, s.calls i = some call → Sound parse texts s i call
  cached : ∀ file cached, s.engine.analyses.lookup file = some cached →
    Computed parse texts s file cached.revision cached.catalog cached.analysis
  stored : ∀ file stored, s.analyses file = some stored →
    ∃ catalog, Computed parse texts s file stored.sourceRevision catalog
      stored.analysis ∧ Passing s catalog

variable {parse texts} {s t : State Id} {i : ℕ} {call : AnalyzeCall}

/-- Catalogs that have been made stay where they are. -/
theorem Computed.mono {file : SqlFileId} {revision : ℕ}
    {catalog : CatalogAddress} {analysis : Analysis}
    (hcatalogs : s.catalogs <+: t.catalogs)
    (h : Computed parse texts s file revision catalog analysis) :
    Computed parse texts t file revision catalog analysis := by
  obtain ⟨cache, hcache, hanalysis⟩ := h
  obtain ⟨hlt, hget⟩ := List.getElem?_eq_some_iff.1 hcache
  refine ⟨cache, ?_, hanalysis⟩
  rw [List.prefix_iff_getElem?.1 hcatalogs catalog hlt, hget]

/-- What a step of another call or of a swap must keep for a call to be where it
was. -/
theorem Sound.mono (hcatalogs : s.catalogs <+: t.catalogs)
    (hgeneration : s.catalogGeneration ≤ t.catalogGeneration)
    (hholds : HoldsMirror texts s i call → HoldsMirror texts t i call)
    (hcurrent : ∀ generation catalog, generation ≤ s.catalogGeneration →
      Current s generation catalog → Current t generation catalog)
    (hpassing : s.storing = some i → t.storing = some i ∧
      ∀ catalog, Passing s catalog → Passing t catalog)
    (h : Sound parse texts s i call) : Sound parse texts t i call := by
  unfold Sound at h ⊢
  split at h
  · exact h.trans hgeneration
  · exact ⟨h.1.trans hgeneration, hholds h.2⟩
  · exact ⟨h.1.trans hgeneration, hholds h.2.1, hcurrent _ _ h.1 h.2.2⟩
  · exact ⟨h.1.trans hgeneration, hholds h.2.1, hcurrent _ _ h.1 h.2.2⟩
  · obtain ⟨hle, catalog, hcomputed, hcat⟩ := h
    exact ⟨hle.trans hgeneration, catalog, hcomputed.mono hcatalogs,
      hcurrent _ _ hle hcat⟩
  · obtain ⟨hle, catalog, hcomputed, hcat⟩ := h
    exact ⟨hle.trans hgeneration, catalog, hcomputed.mono hcatalogs,
      hcurrent _ _ hle hcat⟩
  · obtain ⟨hstoring, catalog, hcomputed, hcat⟩ := h
    obtain ⟨hstoring', hkeeps⟩ := hpassing hstoring
    exact ⟨hstoring', catalog, hcomputed.mono hcatalogs, hkeeps _ hcat⟩
  · trivial

/-- The catalogs, the generation and the swaps are what they were. -/
structure SameCatalog (s t : State Id) : Prop where
  catalogs : t.catalogs = s.catalogs
  catalog : t.engine.catalog = s.engine.catalog
  generation : t.catalogGeneration = s.catalogGeneration
  swaps : t.swaps = s.swaps

omit [Unicode] [DecidableEq Id] in
theorem SameCatalog.current (h : SameCatalog s t) {generation : ℕ}
    {catalog : CatalogAddress} (hc : Current s generation catalog) :
    Current t generation catalog := by
  unfold Current Unbumped at hc ⊢
  rw [h.catalog, h.generation, h.swaps]
  exact hc

omit [Unicode] [DecidableEq Id] in
theorem SameCatalog.passing (h : SameCatalog s t) {catalog : CatalogAddress}
    (hc : Passing s catalog) : Passing t catalog := by
  unfold Passing Replacing at hc ⊢
  rw [h.catalog, h.swaps]
  exact hc

theorem SameCatalog.computed (h : SameCatalog s t) {file : SqlFileId}
    {revision : ℕ} {catalog : CatalogAddress} {analysis : Analysis}
    (hc : Computed parse texts s file revision catalog analysis) :
    Computed parse texts t file revision catalog analysis :=
  hc.mono ⟨[], by simp [h.catalogs]⟩

/-- A step of an `analyze` call keeps the invariant if the call may stand where
it goes, what it caches and stores may be there, and the locks of the others are
left alone. -/
theorem Coherent.step_call {phase : AnalyzePhase} (h : Coherent parse texts s)
    (hsame : SameCatalog s t) (hi : s.calls i = some call)
    (hcalls : t.calls = Function.update s.calls i (some { call with phase }))
    (hmirrors : ∀ j other, j ≠ i → HoldsMirror texts s j other →
      HoldsMirror texts t j other)
    (hstoring : ∀ j, j ≠ i → s.storing = some j → t.storing = some j)
    (hcached : ∀ file cached, t.engine.analyses.lookup file = some cached →
      Computed parse texts s file cached.revision cached.catalog cached.analysis)
    (hstored : ∀ file stored, t.analyses file = some stored →
      ∃ catalog, Computed parse texts s file stored.sourceRevision catalog
        stored.analysis ∧ Passing s catalog)
    (hphase : Sound parse texts t i { call with phase }) :
    Coherent parse texts t := by
  have hother : ∀ j other, j ≠ i → t.calls j = some other →
      s.calls j = some other := by
    intro j other hj hcall
    rwa [hcalls, Function.update_of_ne hj] at hcall
  have hself : ∀ other, t.calls i = some other → other = { call with phase } := by
    intro other hcall
    rw [hcalls, Function.update_self] at hcall
    exact (Option.some.inj hcall).symm
  refine ⟨?_, ?_, ?_, ?_⟩
  · intro j other hcall
    by_cases hj : j = i
    · subst hj
      rw [hself other hcall]
      exact h.given j call hi
    · exact h.given j other (hother j other hj hcall)
  · intro j other hcall
    by_cases hj : j = i
    · subst hj
      rw [hself other hcall]
      exact hphase
    · exact (h.calls j other (hother j other hj hcall)).mono
        ⟨[], by simp [hsame.catalogs]⟩ hsame.generation.ge
        (hmirrors j other hj) (fun _ _ _ => hsame.current)
        fun hlock => ⟨hstoring j hj hlock, fun _ => hsame.passing⟩
  · intro file cached hlookup
    exact hsame.computed (hcached file cached hlookup)
  · intro file stored hfile
    obtain ⟨catalog, hcomputed, hpassing⟩ := hstored file stored hfile
    exact ⟨catalog, hsame.computed hcomputed, hsame.passing hpassing⟩

omit [DecidableEq Id] [Unicode] in
/-- The mirror of a file has the new text. -/
theorem mirrored_rope (s : State Id) (file : SqlFileId) (text : Text) :
    (s.mirrored file text).rope = text := by
  have hreplaced := replaceText_rope (s.nextRevision + 1)
    ((s.mirrors file).getD (.new s.nextRevision text)) text
  simp only [State.mirrored]
  rcases hedit : replaceText (s.nextRevision + 1)
    ((s.mirrors file).getD (.new s.nextRevision text)) text with ⟨buffer, outcome⟩
  rw [hedit] at hreplaced
  obtain ⟨hrope, rfl⟩ := hreplaced
  exact hrope

/-- A step that leaves all but the phase of the call alone. -/
theorem Coherent.goto {phase : AnalyzePhase} (h : Coherent parse texts s)
    (hi : s.calls i = some call)
    (hphase : Sound parse texts (s.goto i call phase) i { call with phase }) :
    Coherent parse texts (s.goto i call phase) :=
  h.step_call ⟨rfl, rfl, rfl, rfl⟩ hi rfl (fun _ _ _ hm => hm)
    (fun _ _ hl => hl) h.cached h.stored hphase

omit [DecidableEq Id] [Unicode] in
/-- One call holds the lock of the mirrors. -/
theorem HoldsMirror.eq {j : ℕ} {other : AnalyzeCall}
    (h : HoldsMirror texts s i call) (h' : HoldsMirror texts s j other) :
    j = i := by
  have hlock := h.1
  rw [h'.1] at hlock
  exact Option.some.inj hlock

/-- The call has the analysis of its revision and gives the lock back. -/
theorem Coherent.analysed {generation : ℕ} {catalog : CatalogAddress}
    {analysis : Analysis} {engine : SemanticEngine}
    (h : Coherent parse texts s) (hi : s.calls i = some call)
    (hholds : HoldsMirror texts s i call)
    (hle : generation ≤ s.catalogGeneration)
    (hcurrent : Current s generation catalog)
    (hcomputed : Computed parse texts s call.file call.revision catalog analysis)
    (hcatalog : engine.catalog = s.engine.catalog)
    (hcached : ∀ file cached, engine.analyses.lookup file = some cached →
      Computed parse texts s file cached.revision cached.catalog
        cached.analysis) :
    Coherent parse texts ({ s with engine, mirroring := none }.goto i call
      (.rechecking generation analysis)) := by
  have hsame : SameCatalog s ({ s with engine, mirroring := none }.goto i call
      (.rechecking generation analysis)) := ⟨rfl, hcatalog, rfl, rfl⟩
  refine h.step_call hsame hi rfl ?_ (fun _ _ hl => hl) hcached h.stored
    ⟨hle, catalog, hcomputed, hsame.current hcurrent⟩
  intro j other hj hother
  exact absurd (hholds.eq hother) hj

/-- The call stores the analysis, unless one of its revision is there, and gives
the lock back. -/
theorem Coherent.stores {phase : AnalyzePhase}
    {analyses : SqlFileId → Option StoredAnalysis} (h : Coherent parse texts s)
    (hi : s.calls i = some call) (hlock : s.storing = some i)
    (hstored : ∀ file stored, analyses file = some stored →
      ∃ catalog, Computed parse texts s file stored.sourceRevision catalog
        stored.analysis ∧ Passing s catalog)
    (hphase : Sound parse texts ({ s with storing := none, analyses }.goto i call
      phase) i { call with phase }) :
    Coherent parse texts ({ s with storing := none, analyses }.goto i call
      phase) := by
  refine h.step_call ⟨rfl, rfl, rfl, rfl⟩ hi rfl (fun _ _ _ hm => hm) ?_ h.cached
    hstored hphase
  intro j hj hother
  rw [hlock] at hother
  exact absurd (Option.some.inj hother).symm hj

theorem Coherent.analyzeStep {oldest : SqlFileId} (h : Coherent parse texts s)
    (hi : s.calls i = some call)
    (hstep : analyzeStep parse s i call oldest = some t) :
    Coherent parse texts t := by
  have hsound := h.calls i call hi
  unfold Sound at hsound
  unfold Analyses.analyzeStep at hstep
  split at hstep <;> rename_i hphase <;> rw [hphase] at hsound
  · split at hstep
    · cases hstep
    · obtain rfl := Option.some.inj hstep
      refine h.goto hi ?_
      split <;> exact trivial
  · obtain rfl := Option.some.inj hstep
    exact h.goto hi (Nat.le_refl s.catalogGeneration)
  · split at hstep
    · cases hstep
    · rename_i hfree
      obtain rfl := Option.some.inj hstep
      refine h.step_call ⟨rfl, rfl, rfl, rfl⟩ hi rfl ?_ (fun _ _ hl => hl)
        h.cached h.stored ⟨hsound, rfl, s.mirrored call.file call.text, ?_, ?_⟩
      · -- nobody else held the lock
        rintro j other - ⟨hlock, -⟩
        rw [hlock] at hfree
        exact absurd rfl hfree
      · exact Function.update_self ..
      · rw [mirrored_rope]
        exact h.given i call hi
  · obtain ⟨hle, hholds⟩ := hsound
    obtain rfl := Option.some.inj hstep
    exact h.goto hi ⟨hle, hholds, .inl rfl⟩
  · obtain ⟨hle, hholds, hcurrent⟩ := hsound
    split at hstep
    · -- the cache has an analysis of this revision under this catalog
      rename_i analysis hhit
      obtain rfl := Option.some.inj hstep
      have hcomputed := h.cached _ _ (SemanticEngine.lookup_eq_some hhit)
      exact h.analysed hi hholds hle hcurrent hcomputed rfl h.cached
    · obtain rfl := Option.some.inj hstep
      exact h.goto hi ⟨hle, hholds, hcurrent⟩
  · rename_i generation catalog
    obtain ⟨hle, hholds, hcurrent⟩ := hsound
    split at hstep
    · rename_i buffer cache hbuffer hcache
      split at hstep
      · obtain rfl := Option.some.inj hstep
        -- the mirror has the text of the revision
        have hcomputed : Computed parse texts s call.file call.revision catalog
            (analysisOf parse buffer.rope cache) := by
          obtain ⟨buffer', hbuffer', hrope⟩ := hholds.2
          rw [hbuffer] at hbuffer'
          obtain rfl := Option.some.inj hbuffer'
          exact ⟨cache, hcache, by rw [hrope]⟩
        refine h.analysed hi hholds hle hcurrent hcomputed rfl ?_
        intro file cached hlookup
        rcases SemanticEngine.lookup_insert hlookup with ⟨rfl, rfl⟩ | hold
        · exact hcomputed
        · exact h.cached file cached hold
      · cases hstep
    · cases hstep
  · obtain ⟨hle, catalog, hcomputed, hcurrent⟩ := hsound
    obtain rfl := Option.some.inj hstep
    refine h.goto hi ?_
    split
    · exact ⟨hle, catalog, hcomputed, hcurrent⟩
    · exact trivial
  · obtain ⟨hle, catalog, hcomputed, hcurrent⟩ := hsound
    split at hstep
    · cases hstep
    · rename_i hfree
      split at hstep
      · rename_i hsame
        obtain rfl := Option.some.inj hstep
        refine h.step_call ⟨rfl, rfl, rfl, rfl⟩ hi rfl (fun _ _ _ hm => hm) ?_
          h.cached h.stored ⟨rfl, catalog, hcomputed, ?_⟩
        · intro j _ hlock
          rw [hlock] at hfree
          exact absurd rfl hfree
        · rw [← hsame] at hcurrent
          exact hcurrent.passing
      · obtain rfl := Option.some.inj hstep
        exact h.goto hi trivial
  · rename_i analysis
    obtain ⟨hlock, catalog, hcomputed, hpassing⟩ := hsound
    split at hstep
    · obtain rfl := Option.some.inj hstep
      exact h.stores hi hlock h.stored trivial
    · obtain rfl := Option.some.inj hstep
      refine h.stores hi hlock ?_ trivial
      intro file stored hfile
      by_cases hf : file = call.file
      · subst hf
        rw [Function.update_self] at hfile
        obtain rfl := Option.some.inj hfile
        exact ⟨catalog, hcomputed, hpassing⟩
      · rw [Function.update_of_ne hf] at hfile
        exact h.stored file stored hfile
  · obtain rfl := Option.some.inj hstep
    exact h.step_call ⟨rfl, rfl, rfl, rfl⟩ hi rfl (fun _ _ _ hm => hm)
      (fun _ _ hl => hl) h.cached h.stored trivial
  · cases hstep

/-! ## Swaps -/

/-- A step of a swap keeps the invariant if what was current or passing still is,
and the rest is left alone. -/
theorem Coherent.step_swap (h : Coherent parse texts s)
    (hcatalogs : s.catalogs <+: t.catalogs)
    (hgeneration : s.catalogGeneration ≤ t.catalogGeneration)
    (hcalls : t.calls = s.calls) (hmirrors : t.mirrors = s.mirrors)
    (hmirroring : t.mirroring = s.mirroring) (hstoring : t.storing = s.storing)
    (hcurrent : ∀ generation catalog, generation ≤ s.catalogGeneration →
      Current s generation catalog → Current t generation catalog)
    (hpassing : ∀ j, s.storing = some j → ∀ catalog, Passing s catalog →
      Passing t catalog)
    (hcached : ∀ file cached, t.engine.analyses.lookup file = some cached →
      s.engine.analyses.lookup file = some cached)
    (hstored : ∀ file stored, t.analyses file = some stored →
      s.analyses file = some stored ∧
        ∀ catalog, Passing s catalog → Passing t catalog) :
    Coherent parse texts t := by
  refine ⟨?_, ?_, ?_, ?_⟩
  · rw [hcalls]
    exact h.given
  · intro i call hcall
    rw [hcalls] at hcall
    refine (h.calls i call hcall).mono hcatalogs hgeneration ?_ hcurrent ?_
    · unfold HoldsMirror
      rw [hmirrors, hmirroring]
      exact id
    · intro hlock
      exact ⟨hstoring.trans hlock, hpassing i hlock⟩
  · intro file cached hlookup
    exact (h.cached file cached (hcached file cached hlookup)).mono hcatalogs
  · intro file stored hfile
    obtain ⟨hold, hkeeps⟩ := hstored file stored hfile
    obtain ⟨catalog, hcomputed, hpass⟩ := h.stored file stored hold
    exact ⟨catalog, hcomputed.mono hcatalogs, hkeeps catalog hpass⟩

omit [Unicode] [DecidableEq Id] in
/-- The swaps but one are where they were. -/
theorem Replacing.mono {phase phase' : SwapPhase Id} (hi : s.swaps i = some phase)
    (ht : t.swaps = Function.update s.swaps i (some phase'))
    (hphase : phase.isReplacing = true → phase'.isReplacing = true)
    (h : Replacing s) : Replacing t := by
  obtain ⟨j, other, hj, hother⟩ := h
  by_cases hji : j = i
  · subst hji
    rw [hi] at hj
    obtain rfl := Option.some.inj hj
    exact ⟨j, phase', by rw [ht, Function.update_self], hphase hother⟩
  · exact ⟨j, other, by rw [ht, Function.update_of_ne hji]; exact hj, hother⟩

omit [Unicode] [DecidableEq Id] in
theorem Unbumped.mono {phase phase' : SwapPhase Id} (hi : s.swaps i = some phase)
    (ht : t.swaps = Function.update s.swaps i (some phase'))
    (hphase : phase.isUnbumped = true → phase'.isUnbumped = true)
    (h : Unbumped s) : Unbumped t := by
  obtain ⟨j, other, hj, hother⟩ := h
  by_cases hji : j = i
  · subst hji
    rw [hi] at hj
    obtain rfl := Option.some.inj hj
    exact ⟨j, phase', by rw [ht, Function.update_self], hphase hother⟩
  · exact ⟨j, other, by rw [ht, Function.update_of_ne hji]; exact hj, hother⟩

/-- A step of a swap that leaves the engine's catalog, the generation and what is
stored alone. -/
theorem Coherent.step_swap_aside {phase phase' : SwapPhase Id}
    (h : Coherent parse texts s) (hi : s.swaps i = some phase)
    (ht : t.swaps = Function.update s.swaps i (some phase'))
    (hunbumped : phase.isUnbumped = true → phase'.isUnbumped = true)
    (hreplacing : phase.isReplacing = true → phase'.isReplacing = true)
    (hcatalogs : s.catalogs <+: t.catalogs)
    (hcatalog : t.engine.catalog = s.engine.catalog)
    (hgeneration : t.catalogGeneration = s.catalogGeneration)
    (hcalls : t.calls = s.calls) (hmirrors : t.mirrors = s.mirrors)
    (hmirroring : t.mirroring = s.mirroring) (hstoring : t.storing = s.storing)
    (hcached : ∀ file cached, t.engine.analyses.lookup file = some cached →
      s.engine.analyses.lookup file = some cached)
    (hstored : t.analyses = s.analyses) : Coherent parse texts t := by
  have hpassing : ∀ catalog, Passing s catalog → Passing t catalog := by
    intro catalog hpass
    rcases hpass with heq | hreplaces
    · exact .inl (heq.trans hcatalog.symm)
    · exact .inr (hreplaces.mono hi ht hreplacing)
  refine h.step_swap hcatalogs hgeneration.ge hcalls hmirrors hmirroring
    hstoring ?_ (fun _ _ => hpassing) hcached ?_
  · intro generation catalog _ hcurrent
    rcases hcurrent with heq | hun | hlt
    · exact .inl (heq.trans hcatalog.symm)
    · exact .inr (.inl (hun.mono hi ht hunbumped))
    · exact .inr (.inr (hlt.trans_eq hgeneration.symm))
  · intro file stored hfile
    rw [hstored] at hfile
    exact ⟨hfile, hpassing⟩

theorem Coherent.swapStep {phase : SwapPhase Id} (h : Coherent parse texts s)
    (hi : s.swaps i = some phase) (hstep : swapStep s i phase = some t) :
    Coherent parse texts t := by
  cases phase with
  | comparing snapshot =>
      dsimp only [Analyses.swapStep] at hstep
      split at hstep
      · cases hstep
      · split at hstep
        · obtain rfl := Option.some.inj hstep
          exact h.step_swap_aside hi rfl (by rintro ⟨⟩) (by rintro ⟨⟩)
            ⟨[], by simp [State.swapTo]⟩ rfl rfl rfl rfl rfl rfl
            (fun _ _ hl => hl) rfl
        · obtain rfl := Option.some.inj hstep
          exact h.step_swap_aside hi rfl (by rintro ⟨⟩) (by rintro ⟨⟩)
            (List.prefix_append _ _) rfl rfl rfl rfl rfl rfl
            (fun _ _ hl => hl) rfl
  | forgetting catalog =>
      dsimp only [Analyses.swapStep] at hstep
      split at hstep
      · cases hstep
      · obtain rfl := Option.some.inj hstep
        exact h.step_swap_aside hi rfl (by rintro ⟨⟩) (by rintro ⟨⟩)
          ⟨[], by simp [State.swapTo]⟩ rfl rfl rfl rfl rfl rfl
          (fun _ _ hl => hl) rfl
  | writing catalog id =>
      -- from here on every other catalog is being replaced
      obtain rfl := Option.some.inj hstep
      have hself : (s.swapTo i (.clearingCache id)).swaps i
          = some (.clearingCache id) := Function.update_self ..
      refine h.step_swap ⟨[], by simp [State.swapTo]⟩ (Nat.le_refl _) rfl rfl rfl
        rfl (fun _ _ _ _ => .inr (.inl ⟨i, _, hself, rfl⟩)) (fun _ _ _ _ => ?_)
        (fun _ _ hl => hl) fun _ _ hfile => ⟨hfile, fun _ _ => ?_⟩
      · exact .inr ⟨i, _, hself, rfl⟩
      · exact .inr ⟨i, _, hself, rfl⟩
  | clearingCache id =>
      obtain rfl := Option.some.inj hstep
      refine h.step_swap_aside hi rfl (fun _ => rfl) (fun _ => rfl)
        ⟨[], by simp [State.swapTo]⟩ rfl rfl rfl rfl rfl rfl ?_ rfl
      intro file cached hlookup
      change (∅ : HashMap SqlFileId CachedAnalysis).lookup file
        = some cached at hlookup
      rw [AList.lookup_empty] at hlookup
      cases hlookup
  | bumping id =>
      -- every call that has loaded a generation has loaded an older one
      obtain rfl := Option.some.inj hstep
      have hreplacing : Replacing s → Replacing
          ({ s with catalogGeneration := s.catalogGeneration + 1 }.swapTo i
            (.clearing id)) :=
        fun hr => hr.mono hi rfl fun _ => rfl
      refine h.step_swap ⟨[], by simp [State.swapTo]⟩ (Nat.le_succ _) rfl rfl rfl
        rfl (fun _ _ hle _ => .inr (.inr (Nat.lt_succ_of_le hle)))
        (fun _ _ _ hp => hp.imp_right hreplacing) (fun _ _ hl => hl)
        fun _ _ hfile => ⟨hfile, fun _ hp => hp.imp_right hreplacing⟩
  | clearing id =>
      dsimp only [Analyses.swapStep] at hstep
      split at hstep
      · cases hstep
      · rename_i hfree
        obtain rfl := Option.some.inj hstep
        refine h.step_swap ⟨[], by simp [State.swapTo]⟩ (Nat.le_refl _) rfl rfl
          rfl rfl ?_ ?_ (fun _ _ hl => hl) ?_
        · rintro generation catalog - (heq | hun | hlt)
          · exact .inl heq
          · exact .inr (.inl (hun.mono hi rfl (by rintro ⟨⟩)))
          · exact .inr (.inr hlt)
        · -- nobody is about to store an analysis
          intro j hlock
          rw [hlock] at hfree
          exact absurd rfl hfree
        · rintro file stored ⟨⟩
  | recording id =>
      obtain rfl := Option.some.inj hstep
      exact h.step_swap_aside hi rfl (by rintro ⟨⟩) (by rintro ⟨⟩)
        ⟨[], by simp [State.swapTo]⟩ rfl rfl rfl rfl rfl rfl
        (fun _ _ hl => hl) rfl
  | finished => cases hstep

/-- A swap that starts has replaced nothing yet. -/
theorem Coherent.start_swap {phase : SwapPhase Id} (h : Coherent parse texts s)
    (hi : s.swaps i = none) : Coherent parse texts (s.swapTo i phase) := by
  have hkept : ∀ j other, s.swaps j = some other →
      (s.swapTo i phase).swaps j = some other := by
    intro j other hj
    have hne : j ≠ i := by
      rintro rfl
      rw [hi] at hj
      cases hj
    exact (Function.update_of_ne hne _ _).trans hj
  have hpassing : ∀ catalog, Passing s catalog →
      Passing (s.swapTo i phase) catalog := by
    rintro catalog (heq | ⟨j, other, hj, hother⟩)
    · exact .inl heq
    · exact .inr ⟨j, other, hkept j other hj, hother⟩
  refine h.step_swap ⟨[], by simp [State.swapTo]⟩ (Nat.le_refl _) rfl rfl rfl rfl
    ?_ (fun _ _ => hpassing) (fun _ _ hl => hl) fun _ _ hfile => ⟨hfile, hpassing⟩
  rintro generation catalog - (heq | ⟨j, other, hj, hother⟩ | hlt)
  · exact .inl heq
  · exact .inr (.inl ⟨j, other, hkept j other hj, hother⟩)
  · exact .inr (.inr hlt)

/-! ## One step -/

/-- A step that leaves the catalog and the calls alone, removes stored analyses
at most, and no mirror that a call holds. -/
theorem Coherent.step_aside (h : Coherent parse texts s)
    (hsame : SameCatalog s t) (hcalls : t.calls = s.calls)
    (hstoring : t.storing = s.storing)
    (hholds : ∀ j call, HoldsMirror texts s j call → HoldsMirror texts t j call)
    (hcached : t.engine.analyses = s.engine.analyses)
    (hstored : ∀ file stored, t.analyses file = some stored →
      s.analyses file = some stored) : Coherent parse texts t := by
  refine ⟨?_, ?_, ?_, ?_⟩
  · rw [hcalls]
    exact h.given
  · intro j call hcall
    rw [hcalls] at hcall
    refine (h.calls j call hcall).mono ⟨[], by simp [hsame.catalogs]⟩
      hsame.generation.ge (hholds j call) (fun _ _ _ => hsame.current) ?_
    intro hlock
    exact ⟨hstoring.trans hlock, fun _ => hsame.passing⟩
  · intro file cached hlookup
    rw [hcached] at hlookup
    exact hsame.computed (h.cached file cached hlookup)
  · intro file stored hfile
    obtain ⟨catalog, hcomputed, hpass⟩ := h.stored file stored
      (hstored file stored hfile)
    exact ⟨catalog, hsame.computed hcomputed, hsame.passing hpass⟩

theorem Coherent.forgetStep {forget : ForgetCall} (h : Coherent parse texts s)
    (hstep : forgetStep s i forget = some t) : Coherent parse texts t := by
  unfold Analyses.forgetStep at hstep
  split at hstep
  · split at hstep
    · cases hstep
    · rename_i hfree
      obtain rfl := Option.some.inj hstep
      refine h.step_aside ⟨rfl, rfl, rfl, rfl⟩ rfl rfl ?_ rfl fun _ _ hf => hf
      rintro j call ⟨hlock, -⟩
      rw [hlock] at hfree
      exact absurd rfl hfree
  · split at hstep
    · cases hstep
    · obtain rfl := Option.some.inj hstep
      refine h.step_aside ⟨rfl, rfl, rfl, rfl⟩ rfl rfl (fun _ _ hm => hm) rfl ?_
      intro file stored hfile
      change Function.update s.analyses forget.file none file = some stored
        at hfile
      by_cases hf : file = forget.file
      · subst hf
        rw [Function.update_self] at hfile
        cases hfile
      · rwa [Function.update_of_ne hf] at hfile
  · cases hstep

theorem Coherent.analyze {file : SqlFileId} {revision : ℕ} {text : Text}
    (h : Coherent parse texts s) (htext : text = texts file revision) :
    Coherent parse texts
      (s.goto i ⟨file, revision, text, .checking⟩ .checking) := by
  have hother : ∀ j call, (s.goto i ⟨file, revision, text, .checking⟩
      .checking).calls j = some call →
      call = ⟨file, revision, text, .checking⟩ ∨ s.calls j = some call := by
    intro j call hcall
    change Function.update s.calls i
      (some ⟨file, revision, text, .checking⟩) j = some call at hcall
    by_cases hj : j = i
    · subst hj
      rw [Function.update_self] at hcall
      exact .inl (Option.some.inj hcall).symm
    · rw [Function.update_of_ne hj] at hcall
      exact .inr hcall
  refine ⟨?_, ?_, h.cached, h.stored⟩
  · intro j call hcall
    rcases hother j call hcall with rfl | hold
    · exact htext
    · exact h.given j call hold
  · intro j call hcall
    rcases hother j call hcall with rfl | hold
    · exact trivial
    · exact (h.calls j call hold).mono (List.prefix_rfl) (Nat.le_refl _) id
        (fun _ _ _ hc => hc) fun hlock => ⟨hlock, fun _ hp => hp⟩

theorem Coherent.next {a : Action Id} (h : Coherent parse texts s)
    (htext : a.GivesText texts) (hstep : next parse s a = some t) :
    Coherent parse texts t := by
  cases a with
  | newCatalog catalog =>
      obtain rfl := Option.some.inj hstep
      exact h.step_swap (List.prefix_append _ _) (Nat.le_refl _) rfl rfl rfl rfl
        (fun _ _ _ hc => hc) (fun _ _ _ hp => hp) (fun _ _ hl => hl)
        fun _ _ hfile => ⟨hfile, fun _ hp => hp⟩
  | analyze i file revision text =>
      dsimp only [Analyses.next] at hstep
      split at hstep
      · obtain rfl := Option.some.inj hstep
        exact h.analyze htext
      · cases hstep
  | installSnapshot i snapshot =>
      dsimp only [Analyses.next] at hstep
      split at hstep
      · obtain rfl := Option.some.inj hstep
        exact h.start_swap ‹_›
      · cases hstep
  | setCatalog i catalog =>
      dsimp only [Analyses.next] at hstep
      split at hstep
      · split at hstep
        · obtain rfl := Option.some.inj hstep
          exact h.start_swap ‹_›
        · cases hstep
      · cases hstep
  | forget i file =>
      dsimp only [Analyses.next] at hstep
      split at hstep
      · obtain rfl := Option.some.inj hstep
        exact h.step_aside ⟨rfl, rfl, rfl, rfl⟩ rfl rfl (fun _ _ hm => hm) rfl
          fun _ _ hf => hf
      · cases hstep
  | analyzeStep i oldest =>
      obtain ⟨call, hi, hmoved⟩ := Option.bind_eq_some_iff.1 hstep
      exact h.analyzeStep hi hmoved
  | swapStep i =>
      obtain ⟨phase, hi, hmoved⟩ := Option.bind_eq_some_iff.1 hstep
      exact h.swapStep hi hmoved
  | forgetStep i =>
      obtain ⟨forget, -, hmoved⟩ := Option.bind_eq_some_iff.1 hstep
      exact h.forgetStep hmoved

end Invariant

/-! ## Runs -/

section Runs

variable [Unicode] [DecidableEq Id] {parse : Text → Option Node}
  {texts : SqlFileId → ℕ → Text} {s : State Id}

theorem coherent_of_fresh (h : Fresh s) : Coherent parse texts s := by
  refine ⟨?_, ?_, ?_, ?_⟩
  · intro i call hcall
    rw [h.calls i] at hcall
    cases hcall
  · intro i call hcall
    rw [h.calls i] at hcall
    cases hcall
  · intro file cached hlookup
    rw [h.cache, AList.lookup_empty] at hlookup
    cases hlookup
  · intro file stored hfile
    rw [h.analyses file] at hfile
    cases hfile

/-- Where no swap is between its write of the catalog and its clearing of the
stored analyses, every stored analysis is that of the text of its revision under
the catalog of the engine; and a stored revision grows until a swap or a `forget`
of its file removes it. -/
theorem stored_analyses_coherent
    (h : ((system parse).restrict fun _ a => a.GivesText texts).Reachable s) :
    (¬ Replacing s → ∀ file stored, s.analyses file = some stored →
      ∃ catalog, s.catalogs[s.engine.catalog]? = some catalog ∧
        stored.analysis
          = analysisOf parse (texts file stored.sourceRevision) catalog) ∧
    ∀ file ls t, ((system parse).restrict fun s a =>
        a.GivesText texts ∧ clears file s a = false).Run s ls t →
      KeepsRevision s t file := by
  have hcoherent : Coherent parse texts s := by
    refine h.invariant (I := Coherent parse texts)
      (fun s hs => coherent_of_fresh hs) ?_
    rintro s a t ⟨hstep, htext⟩ hs
    exact hs.next htext hstep
  constructor
  · intro hsettled file stored hfile
    obtain ⟨catalog, ⟨cache, hcache, hanalysis⟩, hpassing⟩ :=
      hcoherent.stored file stored hfile
    rcases hpassing with rfl | hreplacing
    · exact ⟨cache, hcache, hanalysis⟩
    · exact absurd hreplacing hsettled
  · intro file ls t hrun
    induction hrun with
    | nil => exact .of_eq rfl
    | snoc _ hlast ih =>
        exact ih.trans (keepsRevision_step hlast.1 hlast.2.2)

end Runs

section Sample

open Tempr.Support

local instance asciiAnalyses : Unicode := Unicode.ascii

/-- A service over a catalog of one table. -/
def usersService : State ℕ where
  catalogs := [usersCatalog]
  engine := ⟨0, ∅⟩
  mirrors _ := none
  mirroring := none
  analyses _ := none
  storing := none
  catalogGeneration := 0
  installedSnapshot := none
  installing := none
  published := []
  nextRevision := 0
  calls _ := none
  swaps _ := none
  forgets _ := none

theorem fresh_usersService : Fresh usersService :=
  ⟨by decide, rfl, rfl, fun _ => rfl, rfl, fun _ => rfl, fun _ => rfl,
    fun _ => rfl⟩

/-- A parser that has one tree. -/
def besideNosuchTree (_ : Text) : Option Node :=
  some besideNosuch

def besideNosuchTexts (_ : SqlFileId) (_ : ℕ) : Text :=
  besideNosuchText

/-- The analysis of one revision, from its start to its publication. -/
def analyses (i revision : ℕ) : List (Action ℕ) :=
  .analyze i ⟨"f"⟩ revision besideNosuchText
    :: List.replicate 10 (.analyzeStep i ⟨"f"⟩)

/-- Whether a step gives a file its text and clears nothing of it. -/
def givesAndKeeps (s : State ℕ) (a : Action ℕ) : Bool :=
  !clears ⟨"f"⟩ s a &&
    match a with
    | .analyze _ _ _ text => decide (text = besideNosuchText)
    | _ => true

theorem givesAndKeeps_step (s : State ℕ) (a : Action ℕ) (t : State ℕ)
    (h : System.guarded (next besideNosuchTree) givesAndKeeps s a = some t) :
    next besideNosuchTree s a = some t ∧ a.GivesText besideNosuchTexts ∧
      clears ⟨"f"⟩ s a = false := by
  unfold System.guarded at h
  split at h
  · rename_i hgives
    simp only [givesAndKeeps, Bool.and_eq_true, Bool.not_eq_true'] at hgives
    refine ⟨h, ?_, hgives.1⟩
    cases a with
    | analyze i file revision text =>
        exact of_decide_eq_true (p := text = besideNosuchText) hgives.2
    | _ => exact trivial
  · cases h

theorem stored_analyses_coherent_users :
    ∃ s t : State ℕ, s.revisionOf ⟨"f"⟩ = some 7 ∧
      t.revisionOf ⟨"f"⟩ = some 8 ∧ KeepsRevision s t ⟨"f"⟩ ∧
      ∀ stored, t.analyses ⟨"f"⟩ = some stored →
        ∃ catalog, t.catalogs[t.engine.catalog]? = some catalog ∧
          stored.analysis
            = analysisOf besideNosuchTree besideNosuchText catalog := by
  let walk := System.follow (System.guarded (next besideNosuchTree) givesAndKeeps)
  have hfirst : (walk usersService (analyses 0 7)).map
      (fun s => s.revisionOf ⟨"f"⟩) = some (some 7) := by decide +revert
  have hsecond : ((walk usersService (analyses 0 7)).bind fun s =>
      walk s (analyses 1 8)).map (fun t => t.revisionOf ⟨"f"⟩)
        = some (some 8) := by decide +revert
  obtain ⟨s, hs, hseven⟩ := Option.map_eq_some_iff.1 hfirst
  rw [hs] at hsecond
  obtain ⟨t, ht, height⟩ := Option.map_eq_some_iff.1 hsecond
  have hgives : ∀ s a t,
      System.guarded (next besideNosuchTree) givesAndKeeps s a = some t →
      ((system besideNosuchTree).restrict fun _ a =>
        a.GivesText besideNosuchTexts).step s a t := by
    intro s a t h
    obtain ⟨hstep, htext, -⟩ := givesAndKeeps_step s a t h
    exact ⟨hstep, htext⟩
  have hrun : ((system besideNosuchTree).restrict fun _ a =>
      a.GivesText besideNosuchTexts).Run usersService (analyses 0 7) s :=
    System.run_of_follow hgives hs
  have hrun' : ((system besideNosuchTree).restrict fun s a =>
      a.GivesText besideNosuchTexts ∧ clears ⟨"f"⟩ s a = false).Run s
        (analyses 1 8) t :=
    System.run_of_follow givesAndKeeps_step ht
  have hmore : ((system besideNosuchTree).restrict fun _ a =>
      a.GivesText besideNosuchTexts).Run s (analyses 1 8) t :=
    System.run_of_follow hgives ht
  have hreach := System.Reachable.append
    ⟨_, _, fresh_usersService, hrun⟩ hmore
  have hsettled : ¬ Replacing t := by
    rintro ⟨i, phase, hi, -⟩
    have hstarts : ∀ a ∈ analyses 0 7 ++ analyses 1 8, a.swap = none := by
      decide
    have hnone : t.swaps i = none :=
      run_swaps (hrun.append hmore).of_restrict
        (fun a ha => by rw [hstarts a ha]; simp) rfl
    rw [hnone] at hi
    cases hi
  exact ⟨s, t, hseven, height,
    (stored_analyses_coherent ⟨_, _, fresh_usersService, hrun⟩).2 _ _ _ hrun',
    (stored_analyses_coherent hreach).1 hsettled _⟩

end Sample

end Tempr.Services.Analyses
