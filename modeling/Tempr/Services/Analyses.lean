import Tempr.Intel.Engine
import Tempr.Services.MirrorText

/-!
# Analyses under changing catalogs

`IntelligenceService` analyses texts in the background, stores the results, and
replaces the catalog of the engine. Any number of `analyze` and `forget` calls
and of catalog swaps go on at once. One step is a lock section or an atomic
operation of one of them; a lock that is held over several steps is held in the
state.
-/

namespace Tempr.Services.Analyses

open Tempr.Support Tempr.Intel Tempr.Editor

variable {Id : Type}

/-! ## Calls -/

/-- Where an `analyze` call stands: what it does next. -/
inductive AnalyzePhase
  /-- compare the stored revision -/
  | checking
  /-- load the generation -/
  | loading
  /-- lock the mirrors and bring the file's mirror up to the text -/
  | mirroring (generation : ℕ)
  /-- with the mirrors locked: read the catalog of the engine -/
  | reading (generation : ℕ)
  /-- with the mirrors locked: look into the cache of the engine -/
  | lookingUp (generation : ℕ) (catalog : CatalogAddress)
  /-- with the mirrors locked: analyse, and insert in the cache of the engine -/
  | caching (generation : ℕ) (catalog : CatalogAddress)
  /-- load the generation and compare it -/
  | rechecking (generation : ℕ) (analysis : Analysis)
  /-- lock the stored analyses, and compare the generation again -/
  | locking (generation : ℕ) (analysis : Analysis)
  /-- with the stored analyses locked: compare the revision and insert -/
  | storing (analysis : Analysis)
  /-- publish `DiagnosticsReady` -/
  | publishing
  | finished

structure AnalyzeCall where
  file : SqlFileId
  revision : ℕ
  text : Text
  phase : AnalyzePhase

/-- Where a swap of the catalog stands. `install_snapshot` carries the id that it
records at its end. -/
inductive SwapPhase (Id : Type)
  /-- `install_snapshot`: lock the installed id and compare it -/
  | comparing (snapshot : SchemaSnapshot Id)
  /-- `set_catalog`: forget the installed id -/
  | forgetting (catalog : CatalogAddress)
  /-- write the catalog of the engine -/
  | writing (catalog : CatalogAddress) (id : Option SchemaSnapshotId)
  /-- clear the cache of the engine -/
  | clearingCache (id : Option SchemaSnapshotId)
  /-- add one to the generation -/
  | bumping (id : Option SchemaSnapshotId)
  /-- clear the stored analyses -/
  | clearing (id : Option SchemaSnapshotId)
  /-- record the installed id and unlock it -/
  | recording (id : SchemaSnapshotId)
  | finished

inductive ForgetPhase
  | removingMirror
  | removingAnalysis
  | finished

structure ForgetCall where
  file : SqlFileId
  phase : ForgetPhase

structure StoredAnalysis where
  sourceRevision : ℕ
  analysis : Analysis

structure State (Id : Type) where
  /-- the catalogs that have been made, by their addresses -/
  catalogs : List (CatalogCache Id)
  engine : SemanticEngine
  mirrors : SqlFileId → Option Buffer
  /-- the call that holds the lock of the mirrors -/
  mirroring : Option ℕ
  analyses : SqlFileId → Option StoredAnalysis
  /-- the call that holds the lock of the stored analyses -/
  storing : Option ℕ
  /-- The swaps so far. The 64 bits of the code do not run out. -/
  catalogGeneration : ℕ
  installedSnapshot : Option SchemaSnapshotId
  /-- the swap that holds the lock of the installed id -/
  installing : Option ℕ
  /-- the `DiagnosticsReady` events -/
  published : List SqlFileId
  /-- the next revision that the process hands out to a buffer -/
  nextRevision : ℕ
  calls : ℕ → Option AnalyzeCall
  swaps : ℕ → Option (SwapPhase Id)
  forgets : ℕ → Option ForgetCall

inductive Action (Id : Type)
  /-- a caller makes a catalog -/
  | newCatalog (catalog : CatalogCache Id)
  | analyze (i : ℕ) (file : SqlFileId) (revision : ℕ) (text : Text)
  | installSnapshot (i : ℕ) (snapshot : SchemaSnapshot Id)
  | setCatalog (i : ℕ) (catalog : CatalogAddress)
  | forget (i : ℕ) (file : SqlFileId)
  /-- the next step of an `analyze` call; the cache of the engine may list
  `oldest` first -/
  | analyzeStep (i : ℕ) (oldest : SqlFileId)
  | swapStep (i : ℕ)
  | forgetStep (i : ℕ)

namespace State

def goto (s : State Id) (i : ℕ) (call : AnalyzeCall) (phase : AnalyzePhase) :
    State Id :=
  { s with calls := Function.update s.calls i (some { call with phase }) }

def swapTo (s : State Id) (i : ℕ) (phase : SwapPhase Id) : State Id :=
  { s with swaps := Function.update s.swaps i (some phase) }

def forgetTo (s : State Id) (i : ℕ) (call : ForgetCall) (phase : ForgetPhase) :
    State Id :=
  { s with forgets := Function.update s.forgets i (some { call with phase }) }

/-- The revision that is stored of a file. -/
def revisionOf (s : State Id) (file : SqlFileId) : Option ℕ :=
  (s.analyses file).map StoredAnalysis.sourceRevision

/-- Whether a revision of a file is stored that is at least `revision`. -/
def hasRevision (s : State Id) (file : SqlFileId) (revision : ℕ) : Bool :=
  (s.revisionOf file).any fun stored => decide (revision ≤ stored)

/-- The mirror of a file brought up to a text; a new one if there is none, or if
its edit fails. -/
def mirrored (s : State Id) (file : SqlFileId) (text : Text) : Buffer :=
  let buffer := (s.mirrors file).getD (.new s.nextRevision text)
  match replaceText (s.nextRevision + 1) buffer text with
  | (buffer, .ok ()) => buffer
  | (_, .error _) => .new (s.nextRevision + 2) text

end State

/-! ## Steps -/

variable [Unicode] [DecidableEq Id] (parse : Text → Option Node)

/-- The next step of an `analyze` call. -/
def analyzeStep (s : State Id) (i : ℕ) (call : AnalyzeCall)
    (oldest : SqlFileId) : Option (State Id) :=
  match call.phase with
  | .checking =>
      if s.storing.isSome then none
      else
        some (s.goto i call
          (if s.hasRevision call.file call.revision then .finished
            else .loading))
  | .loading => some (s.goto i call (.mirroring s.catalogGeneration))
  | .mirroring generation =>
      if s.mirroring.isSome then none
      else
        some (State.goto
          { s with
            mirroring := some i
            mirrors := Function.update s.mirrors call.file
              (some (s.mirrored call.file call.text))
            nextRevision := s.nextRevision + 3 }
          i call (.reading generation))
  | .reading generation =>
      some (s.goto i call (.lookingUp generation s.engine.catalog))
  | .lookingUp generation catalog =>
      match s.engine.lookup call.file call.revision catalog with
      | some analysis =>
          some ({ s with mirroring := none }.goto i call
            (.rechecking generation analysis))
      | none => some (s.goto i call (.caching generation catalog))
  | .caching generation catalog =>
      match s.mirrors call.file, s.catalogs[catalog]? with
      | some buffer, some cache =>
          if s.engine.mayRemove oldest then
            let analysis := analysisOf parse buffer.rope cache
            let engine := s.engine.insert oldest call.file
              ⟨call.revision, catalog, analysis⟩
            some ({ s with engine, mirroring := none }.goto i call
              (.rechecking generation analysis))
          else none
      | _, _ => none
  | .rechecking generation analysis =>
      some (s.goto i call
        (if s.catalogGeneration = generation then .locking generation analysis
          else .finished))
  | .locking generation analysis =>
      if s.storing.isSome then none
      else if s.catalogGeneration = generation then
        some ({ s with storing := some i }.goto i call (.storing analysis))
      else some (s.goto i call .finished)
  | .storing analysis =>
      if s.hasRevision call.file call.revision then
        some ({ s with storing := none }.goto i call .finished)
      else
        some (State.goto
          { s with
            storing := none
            analyses := Function.update s.analyses call.file
              (some ⟨call.revision, analysis⟩) }
          i call .publishing)
  | .publishing =>
      some ({ s with published := s.published ++ [call.file] }.goto i call
        .finished)
  | .finished => none

omit parse in
/-- The next step of a swap. -/
def swapStep (s : State Id) (i : ℕ) : SwapPhase Id → Option (State Id)
  | .comparing snapshot =>
      if s.installing.isSome then none
      else if s.installedSnapshot = some snapshot.id then
        some (s.swapTo i .finished)
      else
        some (State.swapTo
          { s with
            installing := some i
            catalogs := s.catalogs ++ [.fromSnapshot snapshot] }
          i (.writing s.catalogs.length (some snapshot.id)))
  | .forgetting catalog =>
      if s.installing.isSome then none
      else
        some ({ s with installedSnapshot := none }.swapTo i
          (.writing catalog none))
  | .writing catalog id =>
      some ({ s with engine := { s.engine with catalog } }.swapTo i
        (.clearingCache id))
  | .clearingCache id =>
      some ({ s with engine := { s.engine with analyses := ∅ } }.swapTo i
        (.bumping id))
  | .bumping id =>
      some ({ s with catalogGeneration := s.catalogGeneration + 1 }.swapTo i
        (.clearing id))
  | .clearing id =>
      if s.storing.isSome then none
      else
        some ({ s with analyses := fun _ => none }.swapTo i
          (match id with
            | some id => .recording id
            | none => .finished))
  | .recording id =>
      some ({ s with installedSnapshot := some id, installing := none }.swapTo i
        .finished)
  | .finished => none

omit [Unicode] [DecidableEq Id] parse in
/-- The next step of a `forget` call. -/
def forgetStep (s : State Id) (i : ℕ) (call : ForgetCall) :
    Option (State Id) :=
  match call.phase with
  | .removingMirror =>
      if s.mirroring.isSome then none
      else
        some ({ s with mirrors := Function.update s.mirrors call.file none
          }.forgetTo i call .removingAnalysis)
  | .removingAnalysis =>
      if s.storing.isSome then none
      else
        some ({ s with analyses := Function.update s.analyses call.file none
          }.forgetTo i call .finished)
  | .finished => none

def next (s : State Id) : Action Id → Option (State Id)
  | .newCatalog catalog => some { s with catalogs := s.catalogs ++ [catalog] }
  | .analyze i file revision text =>
      match s.calls i with
      | none =>
          some (s.goto i ⟨file, revision, text, .checking⟩ .checking)
      | some _ => none
  | .installSnapshot i snapshot =>
      match s.swaps i with
      | none => some (s.swapTo i (.comparing snapshot))
      | some _ => none
  | .setCatalog i catalog =>
      match s.swaps i with
      | none =>
          if catalog < s.catalogs.length then
            some (s.swapTo i (.forgetting catalog))
          else none
      | some _ => none
  | .forget i file =>
      match s.forgets i with
      | none => some (s.forgetTo i ⟨file, .removingMirror⟩ .removingMirror)
      | some _ => none
  | .analyzeStep i oldest =>
      (s.calls i).bind fun call => analyzeStep parse s i call oldest
  | .swapStep i => (s.swaps i).bind (swapStep s i)
  | .forgetStep i => (s.forgets i).bind (forgetStep s i)

omit [Unicode] [DecidableEq Id] parse in
/-- A service that has just been made, over a catalog. -/
structure Fresh (s : State Id) : Prop where
  catalog : s.engine.catalog < s.catalogs.length
  cache : s.engine.analyses = ∅
  mirroring : s.mirroring = none
  analyses : ∀ file, s.analyses file = none
  storing : s.storing = none
  calls : ∀ i, s.calls i = none
  swaps : ∀ i, s.swaps i = none
  forgets : ∀ i, s.forgets i = none

/-- The service under any interleaving of analyses, swaps and `forget` calls. -/
def system : System (State Id) (Action Id) :=
  .ofNext Fresh (next parse)

omit [Unicode] [DecidableEq Id] parse in
/-- Every revision of a file has one text. -/
def Action.GivesText (texts : SqlFileId → ℕ → Text) : Action Id → Prop
  | .analyze _ file revision text => text = texts file revision
  | _ => True

end Tempr.Services.Analyses
