import Tempr.Workspace.StorageRuns

/-!
# Atomic saves

However the calls run side by side, and wherever they stop, the catalog caches
and the manifest are an atomic store of whole files.
-/

namespace Tempr.Workspace

open Tempr.Support Tempr.Services

namespace Storage

variable {Id Time Manifest : Type} {formats : Formats Id Time Manifest}
  {storage : FileSystemStorage} {s t : Storage Id Time Manifest}
  {l : Label Id Time Manifest} {call : StorageCall Id Time Manifest}
  {r : FileReplacement Path UInt8} {connection : ConnectionId}
  {snapshot : FetchedSnapshot Id Time} {uuid : Uuid} {manifest : Manifest}

/-! ## What is saved and what is loaded -/

/-- The save at `k` has returned `Ok`. -/
def Saved (s : Storage Id Time Manifest) (k : ℕ) : Prop :=
  ∃ r, s.files.jobs[k]? = some (.replacing r (.returned true))

/-- The load at `j` has returned, with what it has read. -/
def Loaded (s : Storage Id Time Manifest) (j : ℕ)
    (result : ReadResult UInt8) : Prop :=
  ∃ name, s.files.jobs[j]? = some (.reading name (.returned result))

def savedJob : FileJob Path UInt8 → Bool
  | .replacing _ (.returned ok) => ok
  | _ => false

def loadedJob : FileJob Path UInt8 → Option (ReadResult UInt8)
  | .reading _ (.returned result) => some result
  | _ => none

theorem saved_iff {k : ℕ} :
    s.Saved k ↔ (s.files.jobs[k]?.map savedJob) = some true := by
  constructor
  · rintro ⟨r, hr⟩
    rw [hr]
    rfl
  · intro h
    obtain ⟨job, hjob, hsaved⟩ := Option.map_eq_some_iff.1 h
    cases job with
    | reading name stage => cases hsaved
    | replacing r stage =>
        cases stage with
        | returned ok =>
            obtain rfl : ok = true := hsaved
            exact ⟨r, hjob⟩
        | createDirs => cases hsaved
        | create => cases hsaved
        | write inode written => cases hsaved
        | rename => cases hsaved
        | remove => cases hsaved

instance (s : Storage Id Time Manifest) (k : ℕ) : Decidable (s.Saved k) :=
  decidable_of_iff _ saved_iff.symm

/-- The job of a load reads the file of its call. -/
theorem Linked.loaded (h : Linked formats storage s) {j : ℕ}
    {result : ReadResult UInt8} {path : Path} (hj : s.Loaded j result)
    (hcall : s.calls[j]? = some call)
    (hplan : plan formats storage call = some (.inr path)) :
    (s.files.view IsTmp).At j (.get path) (.answered result.answer) := by
  obtain ⟨name, hjob⟩ := hj
  obtain ⟨call', hcall', hplan'⟩ := h.plans.plan_eq hjob
  rw [hcall] at hcall'
  obtain rfl := Option.some.inj hcall'
  rw [hplan] at hplan'
  obtain rfl := Sum.inr.inj (Option.some.inj hplan')
  exact Files.view_at hjob

theorem Linked.length_eq (h : Linked formats storage s) :
    s.files.jobs.length = s.calls.length := by
  simpa using congrArg List.length h.plans

/-- No removal of a temporary file fails. -/
def Removing (s : Storage Id Time Manifest) (l : Label Id Time Manifest) :
    Prop :=
  ∀ (j : ℕ) r, l = .fail j →
    s.files.jobs[j]? ≠ some (FileJob.replacing r .remove)

theorem accounted_init (h : (system formats storage).init s) :
    s.files.Accounted IsTmp s.files.disk := by
  obtain ⟨hjobs, -⟩ := h
  refine ⟨?_, fun a _ hdir => .inl hdir⟩
  rw [hjobs]
  exact nofun

/-- As long as no removal fails, a temporary file of a catalog was there at the
start, or belongs to a save that has not returned: it is at work, or it stopped
before it could rename or remove the file. -/
theorem no_debris {s₀ : Storage Id Time Manifest}
    {ls : List (Label Id Time Manifest)}
    (h₀ : (system formats storage).init s₀)
    (h : ((system formats storage).restrict Removing).Run s₀ ls s)
    (hdir :
      s.files.disk.dir ((storage.catalogCache connection).tmp uuid) ≠ none) :
    s₀.files.disk.dir ((storage.catalogCache connection).tmp uuid) ≠ none ∨
      ∃ (k : ℕ) (snapshot : FetchedSnapshot Id Time),
        s.calls[k]? = some (.saveCatalog connection snapshot uuid) ∧
          ∀ r ok, s.files.jobs[k]? ≠ some (.replacing r (.returned ok)) := by
  have hstep : ∀ s l t, ((system formats storage).restrict Removing).step s l t →
      Planned formats storage s ∧ s.files.Accounted IsTmp s₀.files.disk →
        Planned formats storage t ∧
          t.files.Accounted IsTmp s₀.files.disk := by
    rintro s l t ⟨hnext, hremoving⟩ ⟨hplanned, haccounted⟩
    refine ⟨hplanned.step hnext, ?_⟩
    rcases next_cases hnext with rfl | ⟨k, hk, hnamed, hfail, -⟩
    · exact haccounted
    · exact Files.step_accounted haccounted hnamed
        (fun j r hj => hremoving j r (hfail j hj)) hk
  obtain ⟨hplanned, -, haccounted⟩ :=
    h.preserves hstep ⟨planned_init h₀, accounted_init h₀⟩
  refine (haccounted _ (storage.isTmp_tmp connection uuid) hdir).imp_right ?_
  rintro ⟨job, hmem, hleaves⟩
  obtain ⟨k, hk⟩ := List.getElem?_of_mem hmem
  obtain ⟨call, hcall, hplan⟩ := hplanned.plan_eq hk
  have hholds :
      job.holds = some ((storage.catalogCache connection).tmp uuid) := by
    cases job with
    | reading name stage => exact hleaves
    | replacing r stage =>
        cases stage with
        | returned ok =>
            obtain ⟨htmp, -, hclean⟩ := hleaves
            rcases saves_of_replacement hplan with
              ⟨c, n, w, -, hr⟩ | ⟨m, -, hr⟩
            · rw [hr.cleansUp] at hclean
              cases hclean
            · rw [hr.tmp] at htmp
              exact absurd htmp (storage.manifestTmpPath_ne_tmp connection uuid)
        | createDirs => exact hleaves
        | create => exact hleaves
        | write inode written => exact hleaves
        | rename => exact hleaves
        | remove => exact hleaves
  obtain ⟨r, hr, htmp⟩ := plan_of_holds hholds
  rw [hr] at hplan
  rcases saves_of_replacement hplan with
    ⟨c, n, w, rfl, hsaves⟩ | ⟨m, rfl, hsaves⟩
  · rw [hsaves.tmp] at htmp
    obtain ⟨rfl, rfl⟩ := FileSystemStorage.tmp_injective htmp
    refine ⟨k, n, hcall, fun r' ok hreturned => ?_⟩
    rw [hk] at hreturned
    obtain rfl := Option.some.inj hreturned
    cases hholds
  · rw [hsaves.tmp] at htmp
    exact absurd htmp (storage.manifestTmpPath_ne_tmp connection uuid)

/-! ## A save and a load -/

section Sample

/-- `toml`, for a manifest that is its own text. -/
def textToml : Toml String where
  toStringPretty text := .ok text
  fromStr text := .ok text

def sampleFormats : Formats String String String where
  postcard := tablePostcard
  toml := textToml

def sampleStorage : FileSystemStorage where
  workspacePath := []

def emptyStorage : Storage String String String where
  files := {
    disk := {
      dir := fun _ => none
      data := fun _ => []
      next := 0
      lt_next := nofun
      injective := nofun }
    jobs := []
    stopped := [] }
  calls := []

def sampleUuid : Uuid where
  text := "7f4d6a52-0d3c-4d5c-9a0e-1b2c3d4e5f60"
  noDot := by decide

def sampleSave : StorageCall String String String :=
  .saveCatalog tableSnapshot.connectionId tableSnapshot sampleUuid

def sampleLoad : StorageCall String String String :=
  .loadCatalog tableSnapshot.connectionId

/-- The job does not save the manifest. -/
def leavesManifest (job : FileJob Path UInt8) : Bool :=
  match job.plan with
  | .inl r => r.tmp ≠ sampleStorage.manifestTmpPath
  | .inr _ => true

/-- No catalog has been saved yet, no manifest is, and nothing fails. -/
def isSimple (s : Storage String String String) :
    Label String String String → Bool
  | .call (.saveCatalog _ _ _) => s.calls.isEmpty
  | .call (.saveManifest _) => false
  | .fail _ => false
  | _ => s.files.jobs.all leavesManifest

theorem disciplined_of_isSimple {s : Storage String String String}
    {l : Label String String String} (h : isSimple s l = true) :
    Disciplined sampleStorage s l := by
  constructor
  · rintro connection snapshot uuid rfl connection' snapshot'
    have hempty : s.calls.isEmpty = true := h
    rw [List.isEmpty_iff.1 hempty]
    exact List.not_mem_nil
  · intro j hl r hr htmp
    have hall : s.files.jobs.all leavesManifest = true := by
      rcases hl with rfl | ⟨n, rfl⟩
      · cases h
      · exact h
    have hjob := List.all_eq_true.1 hall _ (List.mem_of_getElem? hr)
    exact absurd htmp (of_decide_eq_true hjob)

theorem init_empty :
    (system sampleFormats sampleStorage).init emptyStorage :=
  ⟨rfl, rfl, rfl⟩

def sampleSystem :
    System (Storage String String String) (Label String String String) :=
  (system sampleFormats sampleStorage).restrict (Disciplined sampleStorage)

def nextSample : Storage String String String →
    Label String String String → Option (Storage String String String) :=
  System.guarded (next sampleFormats sampleStorage) isSimple

theorem step_of_isSimple (s : Storage String String String)
    (l : Label String String String) (t : Storage String String String)
    (h : nextSample s l = some t) : sampleSystem.step s l t := by
  have hguarded : ((System.ofNext (fun _ => True)
      (next sampleFormats sampleStorage)).restrict
        fun s l => isSimple s l = true).step s l t :=
    System.restrict_step_of_guarded s l t h
  exact ⟨hguarded.1, disciplined_of_isSimple hguarded.2⟩

theorem removing_of_isSimple (s : Storage String String String)
    (l : Label String String String) (t : Storage String String String)
    (h : nextSample s l = some t) : s.Removing l := by
  rintro j r rfl
  simp [nextSample, System.guarded, isSimple] at h

/-- The state that the steps lead to. -/
def after (s : Storage String String String)
    (ls : List (Label String String String)) : Storage String String String :=
  (System.follow nextSample s ls).getD s

theorem follow_after {s : Storage String String String}
    {ls : List (Label String String String)}
    (h : (System.follow nextSample s ls).isSome = true) :
    System.follow nextSample s ls = some (after s ls) := by
  obtain ⟨t, ht⟩ := Option.isSome_iff_exists.1 h
  rw [after, ht, Option.getD_some]

/-- A save, up to the renaming. -/
def saveSteps : List (Label String String String) :=
  [.call sampleSave, .run 0 0, .run 0 0, .run 0 70, .run 0 32, .run 0 0]

def loadSteps : List (Label String String String) :=
  [.call sampleLoad, .run 1 0, .run 1 100, .run 1 2, .run 1 0]

def written : Storage String String String :=
  after emptyStorage saveSteps

def renamed : Storage String String String :=
  after written [.run 0 0]

def reread : Storage String String String :=
  after renamed loadSteps

/-- A save that stops half way. -/
def stoppedSteps : List (Label String String String) :=
  [.call sampleSave, .run 0 0, .run 0 0, .run 0 70, .stop 0]

/-- What a save leaves that has stopped is its own. -/
theorem no_debris_sample : ∃ (k : ℕ) (snapshot : FetchedSnapshot String String),
    (after emptyStorage stoppedSteps).calls[k]? =
      some (.saveCatalog tableSnapshot.connectionId snapshot sampleUuid) ∧
    ∀ r ok, (after emptyStorage stoppedSteps).files.jobs[k]? ≠
      some (.replacing r (.returned ok)) := by
  have hrun : ((system sampleFormats sampleStorage).restrict Removing).Run
      emptyStorage stoppedSteps (after emptyStorage stoppedSteps) := by
    refine System.run_of_follow (fun s l t h => ?_)
      (follow_after (by decide +kernel))
    exact ⟨(step_of_isSimple s l t h).1, removing_of_isSimple s l t h⟩
  have hdir : (after emptyStorage stoppedSteps).files.disk.dir
      ((sampleStorage.catalogCache tableSnapshot.connectionId).tmp sampleUuid) ≠
        none := by
    decide +kernel
  rcases no_debris init_empty hrun hdir with hstart | hleft
  · exact absurd rfl hstart
  · exact hleft

/-- Two saves of the manifest at a time. -/
def tornSteps : List (Label String String String) :=
  [.call (.saveManifest "one"), .call (.saveManifest "two"), .run 0 0, .run 0 3,
    .run 0 0, .run 1 0, .run 1 1, .run 0 0, .call .loadManifest, .run 2 0,
    .run 2 1, .run 2 0]

/-- They have one temporary file: what the first renames is the beginning of
what the second writes. -/
theorem manifest_torn :
    ((System.follow (next sampleFormats sampleStorage) emptyStorage
      tornSteps).map fun s => (decide (s.Saved 0),
        s.files.jobs[2]?.bind loadedJob)) =
      some (true, some (.found (asBytes "t"))) := by
  decide +kernel

end Sample

end Storage

end Tempr.Workspace
