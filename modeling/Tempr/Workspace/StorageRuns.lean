import Tempr.Workspace.Storage

/-!
# Runs of calls

The names of the files that calls use, and the runs of jobs that their runs are.
Temporary files are kept apart by their uuids, and by saving the manifest one
call after another.
-/

namespace Tempr.Workspace

open Tempr.Support Tempr.Services

/-! ## Names -/

theorem Path.fileName_append (path : Path) (name : String) :
    Path.fileName (path ++ [name]) = name := by
  rw [Path.fileName, List.getLast?_append, List.getLast?_singleton]
  rfl

theorem Path.withFileName_append (path : Path) (name name' : String) :
    Path.withFileName (path ++ [name]) name' = path ++ [name'] := by
  rw [Path.withFileName, List.dropLast_concat]

namespace FileSystemStorage

variable (storage : FileSystemStorage) (connection : ConnectionId) (uuid : Uuid)

/-- The directory of the catalog caches. -/
def catalogDir : Path :=
  storage.temprDir ++ ["cache"] ++ ["catalog"]

theorem catalogCache_path : (storage.catalogCache connection).path =
    storage.catalogDir ++ [connection.text ++ ".tcat"] :=
  rfl

theorem catalogCache_tmp : (storage.catalogCache connection).tmp uuid =
    storage.catalogDir ++
      [connection.text ++ ".tcat" ++ "." ++ uuid.text ++ ".tmp"] := by
  rw [FileCatalogCache.tmp, catalogCache_path, Path.withFileName_append,
    Path.fileName_append]

theorem isTmp_tmp : IsTmp ((storage.catalogCache connection).tmp uuid) := by
  rw [catalogCache_tmp, IsTmp, Path.fileName_append, String.toList_append]
  exact List.suffix_append _ _

theorem isTmp_manifestTmpPath : IsTmp storage.manifestTmpPath := by
  rw [manifestTmpPath, IsTmp, Path.fileName_append]
  decide

theorem not_isTmp_manifestPath : ¬IsTmp storage.manifestPath := by
  rw [manifestPath, IsTmp, Path.fileName_append]
  decide

theorem not_isTmp_path : ¬IsTmp (storage.catalogCache connection).path := by
  rw [catalogCache_path, IsTmp, Path.fileName_append, String.toList_append]
  intro h
  have hsuffix := List.suffix_of_suffix_length_le h (List.suffix_append _ _)
    (by decide)
  exact absurd hsuffix (by decide)

theorem manifestTmpPath_ne_tmp : storage.manifestTmpPath ≠
    (storage.catalogCache connection).tmp uuid := by
  intro h
  have hlength := congrArg List.length h
  simp [manifestTmpPath, catalogCache_tmp, catalogDir, temprDir] at hlength

variable {storage connection uuid}

/-- What is behind the last dot. -/
theorem eq_of_append_dot (l l' : List Char) {x y : List Char} (hx : '.' ∉ x)
    (hy : '.' ∉ y) (h : l ++ '.' :: x = l' ++ '.' :: y) : x = y := by
  have hbehind : ∀ {z x y : List Char}, '.' ∉ x →
      '.' :: x = z ++ '.' :: y → x = y := by
    intro z x y hx h
    cases z with
    | nil => exact (List.cons.inj h).2
    | cons a z =>
        exfalso
        apply hx
        rw [(List.cons.inj h).2]
        exact List.mem_append_right _ List.mem_cons_self
  rcases List.append_eq_append_iff.1 h with ⟨z, -, hz⟩ | ⟨z, -, hz⟩
  · exact hbehind hx hz
  · exact (hbehind hy hz).symm

/-- The temporary file tells the connection and the uuid. -/
theorem tmp_injective {connection' : ConnectionId} {uuid' : Uuid}
    (h : (storage.catalogCache connection).tmp uuid =
      (storage.catalogCache connection').tmp uuid') :
    connection = connection' ∧ uuid = uuid' := by
  rw [catalogCache_tmp, catalogCache_tmp, List.append_cancel_left_eq,
    List.singleton_inj] at h
  have hnames := (String.append_left_inj _).1 h
  have hlists := congrArg String.toList hnames
  simp only [String.toList_append] at hlists
  have htext : uuid.text = uuid'.text :=
    String.toList_injective <|
      eq_of_append_dot (connection.text ++ ".tcat").toList
        (connection'.text ++ ".tcat").toList uuid.noDot uuid'.noDot
        (by simpa using hlists)
  rw [htext, String.append_left_inj, String.append_left_inj,
    String.append_left_inj] at hnames
  constructor
  · cases connection
    cases connection'
    exact congrArg _ hnames
  · cases uuid
    cases uuid'
    exact (Uuid.mk.injEq _ _ _ _).mpr htext

end FileSystemStorage

/-! ## Calls and jobs -/

namespace Storage

variable {Id Time Manifest : Type} {formats : Formats Id Time Manifest}
  {storage : FileSystemStorage} {s t : Storage Id Time Manifest}
  {l : Label Id Time Manifest} {call : StorageCall Id Time Manifest}
  {r : FileReplacement Path UInt8} {connection : ConnectionId}
  {snapshot : FetchedSnapshot Id Time} {uuid : Uuid} {manifest : Manifest}

/-- What a save of a catalog writes. -/
structure Saves (formats : Formats Id Time Manifest)
    (storage : FileSystemStorage) (connection : ConnectionId)
    (snapshot : FetchedSnapshot Id Time) (uuid : Uuid)
    (r : FileReplacement Path UInt8) : Prop where
  bytes : encodeCatalog formats.postcard snapshot = .ok r.bytes
  tmp : r.tmp = (storage.catalogCache connection).tmp uuid
  dst : r.dst = (storage.catalogCache connection).path
  cleansUp : r.cleansUp = true

/-- What a save of the manifest writes. -/
structure SavesManifest (formats : Formats Id Time Manifest)
    (storage : FileSystemStorage) (manifest : Manifest)
    (r : FileReplacement Path UInt8) : Prop where
  bytes : ∃ text, formats.toml.toStringPretty manifest = .ok text ∧
    r.bytes = asBytes text
  tmp : r.tmp = storage.manifestTmpPath
  dst : r.dst = storage.manifestPath

theorem saves_of_plan (h : plan formats storage
    (.saveCatalog connection snapshot uuid) = some (.inl r)) :
    Saves formats storage connection snapshot uuid r := by
  obtain ⟨r', hsave, hr⟩ := Option.map_eq_some_iff.1 h
  obtain rfl := Sum.inl.inj hr
  unfold FileCatalogCache.save at hsave
  cases hbytes : encodeCatalog formats.postcard snapshot with
  | error e =>
      rw [hbytes] at hsave
      cases hsave
  | ok bytes =>
      rw [hbytes] at hsave
      obtain rfl := Option.some.inj hsave
      exact ⟨hbytes, rfl, rfl, rfl⟩

theorem savesManifest_of_plan (h : plan formats storage
    (.saveManifest manifest) = some (.inl r)) :
    SavesManifest formats storage manifest r := by
  obtain ⟨r', hsave, hr⟩ := Option.map_eq_some_iff.1 h
  obtain rfl := Sum.inl.inj hr
  unfold FileSystemStorage.saveManifest at hsave
  cases htext : formats.toml.toStringPretty manifest with
  | error e =>
      rw [htext] at hsave
      cases hsave
  | ok text =>
      rw [htext] at hsave
      obtain rfl := Option.some.inj hsave
      exact ⟨⟨text, htext, rfl⟩, rfl, rfl⟩

/-- Only saves replace files. -/
theorem saves_of_replacement (h : plan formats storage call = some (.inl r)) :
    (∃ connection snapshot uuid,
      call = .saveCatalog connection snapshot uuid ∧
        Saves formats storage connection snapshot uuid r) ∨
    ∃ manifest, call = .saveManifest manifest ∧
      SavesManifest formats storage manifest r := by
  cases call with
  | saveCatalog connection snapshot uuid =>
      exact .inl ⟨connection, snapshot, uuid, rfl, saves_of_plan h⟩
  | saveManifest manifest =>
      exact .inr ⟨manifest, rfl, savesManifest_of_plan h⟩
  | loadCatalog connection => cases h
  | loadManifest => cases h

/-- Temporary files have temporary names, and no other files have. -/
theorem named_startOf {p : FileReplacement Path UInt8 ⊕ Path}
    (h : plan formats storage call = some p) : (startOf p).Named IsTmp := by
  cases p with
  | inl r =>
      rcases saves_of_replacement h with ⟨c, n, u, -, hr⟩ | ⟨m, -, hr⟩
      · refine ⟨?_, ?_⟩
        · rw [hr.tmp]
          exact storage.isTmp_tmp c u
        · rw [hr.dst]
          exact storage.not_isTmp_path c
      · refine ⟨?_, ?_⟩
        · rw [hr.tmp]
          exact storage.isTmp_manifestTmpPath
        · rw [hr.dst]
          exact storage.not_isTmp_manifestPath
  | inr name =>
      cases call with
      | saveCatalog connection snapshot uuid =>
          obtain ⟨r, -, hr⟩ := Option.map_eq_some_iff.1 h
          cases hr
      | saveManifest manifest =>
          obtain ⟨r, -, hr⟩ := Option.map_eq_some_iff.1 h
          cases hr
      | loadCatalog connection =>
          obtain rfl := Sum.inr.inj (Option.some.inj h)
          exact storage.not_isTmp_path connection
      | loadManifest =>
          obtain rfl := Sum.inr.inj (Option.some.inj h)
          exact storage.not_isTmp_manifestPath

/-- Every job does what its call is for. -/
def Planned (formats : Formats Id Time Manifest) (storage : FileSystemStorage)
    (s : Storage Id Time Manifest) : Prop :=
  s.files.jobs.map (some ∘ FileJob.plan) = s.calls.map (plan formats storage)

/-- Moreover, every uuid is that of one call. -/
structure Linked (formats : Formats Id Time Manifest)
    (storage : FileSystemStorage) (s : Storage Id Time Manifest) : Prop where
  plans : Planned formats storage s
  uuids : ∀ (j k : ℕ) c c' n n' u,
    s.calls[j]? = some (StorageCall.saveCatalog c n u) →
      s.calls[k]? = some (StorageCall.saveCatalog c' n' u) → j = k

theorem Planned.plan_eq (h : Planned formats storage s) {j : ℕ}
    {job : FileJob Path UInt8} (hj : s.files.jobs[j]? = some job) :
    ∃ call, s.calls[j]? = some call ∧
      plan formats storage call = some job.plan := by
  have hat := congrArg (fun l => l[j]?) h
  simp only [List.getElem?_map, hj, Option.map_some, Function.comp_apply] at hat
  obtain ⟨call, hcall, hplan⟩ := Option.map_eq_some_iff.1 hat.symm
  exact ⟨call, hcall, hplan⟩

theorem plan_of_holds {job : FileJob Path UInt8} {tmp : Path}
    (h : job.holds = some tmp) : ∃ r, job.plan = .inl r ∧ r.tmp = tmp := by
  cases job with
  | reading name stage => cases h
  | replacing r stage =>
      refine ⟨r, rfl, ?_⟩
      cases stage <;> cases h <;> rfl

/-- Uuids that do not come twice, and manifests that are saved one by one, keep
the temporary files of jobs apart. -/
theorem Linked.exclusive (h : Linked formats storage s)
    {k : Files.Label Path UInt8}
    (halone : ∀ j, (k = .fail j ∨ ∃ n, k = .run j n) →
      ∀ r, s.files.jobs[j]? = some (.replacing r .create) →
        r.tmp = storage.manifestTmpPath → ∀ i job, i ≠ j →
          i ∉ s.files.stopped → s.files.jobs[i]? = some job →
            job.holds ≠ some storage.manifestTmpPath) :
    s.files.Exclusive k := by
  intro j r hk hj i job hne hlive hi hholds
  obtain ⟨call, hcall, hplan⟩ := h.plans.plan_eq hj
  obtain ⟨r', hr', htmp⟩ := plan_of_holds hholds
  obtain ⟨call', hcall', hplan'⟩ := h.plans.plan_eq hi
  rw [hr'] at hplan'
  rcases saves_of_replacement hplan with ⟨c, n, u, rfl, hr⟩ | ⟨m, rfl, hr⟩
  · rcases saves_of_replacement hplan' with
      ⟨c', n', u', rfl, hs⟩ | ⟨m', rfl, hs⟩
    · rw [hs.tmp, hr.tmp] at htmp
      obtain ⟨-, rfl⟩ := FileSystemStorage.tmp_injective htmp
      exact hne (h.uuids i j c' c n' n u' hcall' hcall)
    · rw [hs.tmp, hr.tmp] at htmp
      exact storage.manifestTmpPath_ne_tmp c u htmp
  · refine halone j hk r hj hr.tmp i job hne hlive hi ?_
    rw [hholds, hr.tmp]

/-- The steps in which uuids are fresh and manifests are saved one by one. -/
def Disciplined (storage : FileSystemStorage) (s : Storage Id Time Manifest)
    (l : Label Id Time Manifest) : Prop :=
  s.Fresh l ∧ Alone storage s l

/-- A step of the calls is none of the files, or one whose call, if it makes
one, names files as it should. -/
theorem next_cases (h : next formats storage s l = some t) :
    t = s ∨ ∃ k, s.files.next k = some t.files ∧ k.Named IsTmp ∧
      (∀ j, k = .fail j → l = .fail j) ∧
        ∀ j n, k = .run j n → l = .run j n := by
  cases l with
  | call call =>
      simp only [next] at h
      cases hplan : plan formats storage call with
      | none =>
          rw [hplan] at h
          exact .inl (Option.some.inj h).symm
      | some p =>
          rw [hplan] at h
          obtain ⟨files, hnext, rfl⟩ := Option.map_eq_some_iff.1 h
          refine .inr ⟨_, hnext, named_startOf hplan, ?_, ?_⟩
          · intro j hj
            cases p <;> cases hj
          · intro j n hj
            cases p <;> cases hj
  | run j n =>
      obtain ⟨files, hnext, rfl⟩ := Option.map_eq_some_iff.1 h
      exact .inr ⟨_, hnext, trivial, nofun, fun i m hi => by cases hi; rfl⟩
  | fail j =>
      obtain ⟨files, hnext, rfl⟩ := Option.map_eq_some_iff.1 h
      exact .inr ⟨_, hnext, trivial, fun i hi => by cases hi; rfl, nofun⟩
  | stop j =>
      obtain rfl := Option.some.inj h
      exact .inr ⟨.stop j, rfl, trivial, nofun, nofun⟩

/-- Calls that are at work keep their jobs. -/
theorem Planned.files (h : Planned formats storage s)
    {k : Files.Label Path UInt8} {files : Files Path UInt8}
    (hk : k.plan = none) (hnext : s.files.next k = some files) :
    Planned formats storage ⟨files, s.calls⟩ := by
  have hplans := Files.plans_next hnext
  rw [hk, Option.toList_none, List.append_nil] at hplans
  rw [Planned, ← List.map_map, hplans, List.map_map]
  exact h

theorem Planned.step (hs : Planned formats storage s)
    (h : next formats storage s l = some t) : Planned formats storage t := by
  cases l with
  | call call =>
      simp only [next] at h
      cases hplan : plan formats storage call with
      | none =>
          rw [hplan] at h
          obtain rfl := Option.some.inj h
          exact hs
      | some p =>
          rw [hplan] at h
          obtain ⟨files, hnext, rfl⟩ := Option.map_eq_some_iff.1 h
          have hp : (startOf p).plan = some p := by
            cases p <;> rfl
          rw [Planned, ← List.map_map, Files.plans_next hnext, hp,
            List.map_append, List.map_append, List.map_map,
            show s.files.jobs.map (some ∘ FileJob.plan) = _ from hs,
            List.map_singleton, hplan]
          rfl
  | run j n =>
      obtain ⟨files, hnext, rfl⟩ := Option.map_eq_some_iff.1 h
      exact hs.files rfl hnext
  | fail j =>
      obtain ⟨files, hnext, rfl⟩ := Option.map_eq_some_iff.1 h
      exact hs.files rfl hnext
  | stop j =>
      obtain rfl := Option.some.inj h
      exact hs.files (k := .stop j) rfl rfl

theorem planned_init (h : (system formats storage).init s) :
    Planned formats storage s := by
  obtain ⟨hjobs, -, hcalls⟩ := h
  rw [Planned, hjobs, hcalls]
  rfl

/-- A step adds the call that it makes, if it makes one. -/
theorem calls_next (h : next formats storage s l = some t) :
    t.calls = s.calls ∨ ∃ call, l = .call call ∧ t.calls = s.calls ++ [call] := by
  cases l with
  | call call =>
      simp only [next] at h
      cases hplan : plan formats storage call with
      | none =>
          rw [hplan] at h
          obtain rfl := Option.some.inj h
          exact .inl rfl
      | some p =>
          rw [hplan] at h
          obtain ⟨files, -, rfl⟩ := Option.map_eq_some_iff.1 h
          exact .inr ⟨call, rfl, rfl⟩
  | run j n =>
      obtain ⟨files, -, rfl⟩ := Option.map_eq_some_iff.1 h
      exact .inl rfl
  | fail j =>
      obtain ⟨files, -, rfl⟩ := Option.map_eq_some_iff.1 h
      exact .inl rfl
  | stop j =>
      obtain rfl := Option.some.inj h
      exact .inl rfl

theorem Linked.step (hs : Linked formats storage s) (hfresh : s.Fresh l)
    (h : next formats storage s l = some t) : Linked formats storage t := by
  refine ⟨hs.plans.step h, ?_⟩
  rcases calls_next h with hsame | ⟨call, rfl, hcalls⟩
  · rw [hsame]
    exact hs.uuids
  · rw [hcalls]
    intro j k c c' n n' u hj hk
    rcases Files.getElem?_append_cases hj with hj' | ⟨rfl, hu⟩
    · rcases Files.getElem?_append_cases hk with hk' | ⟨rfl, hu⟩
      · exact hs.uuids j k c c' n n' u hj' hk'
      · exact absurd (List.mem_of_getElem? hj')
          (hfresh c' n' u (congrArg _ hu.symm) c n)
    · rcases Files.getElem?_append_cases hk with hk' | ⟨rfl, -⟩
      · exact absurd (List.mem_of_getElem? hk')
          (hfresh c n u (congrArg _ hu.symm) c' n')
      · rfl

/-- One step of the calls is one of the files, in which temporary files are kept
apart, or none. -/
theorem step_disciplined (hs : Linked formats storage s)
    (hl : Disciplined storage s l) (h : next formats storage s l = some t) :
    Linked formats storage t ∧ ∃ ks,
      ((Files.system Path UInt8).restrict (Files.Orderly IsTmp)).Run
        s.files ks t.files := by
  obtain ⟨hfresh, halone⟩ := hl
  refine ⟨hs.step hfresh h, ?_⟩
  rcases next_cases h with rfl | ⟨k, hnext, hnamed, hfail, hrun⟩
  · exact ⟨[], .nil _⟩
  · have hx : s.files.Exclusive k := by
      refine hs.exclusive fun j hj => halone j ?_
      rcases hj with hj | ⟨n, hj⟩
      · exact .inl (hfail j hj)
      · exact .inr ⟨n, hrun j n hj⟩
    exact ⟨[] ++ [k], .snoc (.nil _) ⟨hnext, hnamed, hx⟩⟩

theorem Linked.init (h : (system formats storage).init s) :
    Linked formats storage s := by
  refine ⟨planned_init h, fun j k c c' n n' u hj => ?_⟩
  rw [h.2.2] at hj
  cases hj

/-- A disciplined run of the calls is an orderly run of the files. -/
theorem Linked.run {ls : List (Label Id Time Manifest)}
    (hs : Linked formats storage s)
    (h : ((system formats storage).restrict (Disciplined storage)).Run s ls t) :
    Linked formats storage t ∧ ∃ ks,
      ((Files.system Path UInt8).restrict (Files.Orderly IsTmp)).Run
        s.files ks t.files := by
  have hstep : ∀ s l t,
      ((system formats storage).restrict (Disciplined storage)).step s l t →
        Linked formats storage s → Linked formats storage t :=
    fun _ _ _ hstep hs => (step_disciplined hs hstep.2 hstep.1).1
  have hfiles : ∀ s l t,
      ((system formats storage).restrict (Disciplined storage)).step s l t →
        Linked formats storage s → ∃ ks,
          ((Files.system Path UInt8).restrict (Files.Orderly IsTmp)).Run
            s.files ks t.files :=
    fun _ _ _ hstep hs => (step_disciplined hs hstep.2 hstep.1).2
  exact h.simulate hstep hfiles hs

end Storage

end Tempr.Workspace
