import Tempr.Support.FileJobs

/-!
# Files that are replaced by renaming

As long as no two jobs use one temporary file at a time, the files are an atomic
store, and what is left of a job is its temporary file at most.
-/

namespace Tempr.Support

/-! ## Runs -/

namespace Files

section Sound

variable {ν β : Type*} (T : ν → Prop)

/-- Every job at work has its temporary file to itself. -/
structure Sound (s : Files ν β) : Prop where
  named : ∀ job ∈ s.jobs, job.Named T
  reads : ∀ job ∈ s.jobs, job.Reads T s.disk
  owns : ∀ j job, s.jobs[j]? = some job → j ∉ s.stopped → job.Owns s.disk
  apart : ∀ j k job job', s.jobs[j]? = some job → s.jobs[k]? = some job' →
    j ∉ s.stopped → k ∉ s.stopped → job.holds ≠ none →
      job.holds = job'.holds → j = k

end Sound

variable {ν β : Type*} {T : ν → Prop} {s t : Files ν β} {d' : Disk ν β}
  {job job' : FileJob ν β} {o : Option ν} {j : ℕ}

theorem reads_of_keeps {d : Disk ν β} (h : d.Keeps T o d')
    (hreads : job.Reads T d) : job.Reads T d' := by
  cases job with
  | replacing r stage => trivial
  | reading name stage =>
      cases stage with
      | read inode got =>
          obtain ⟨hsettled, hgot⟩ := hreads
          obtain ⟨hsettled', hdata⟩ := h.settled inode hsettled
          exact ⟨hsettled', hdata ▸ hgot⟩
      | openFile => trivial
      | returned result => trivial

theorem call_of_keeps {d : Disk ν β} (h : d.Keeps T o d')
    (hreads : job.Reads T d) : job.call d' = job.call d := by
  cases job with
  | replacing r stage =>
      cases stage with
      | returned ok => cases ok <;> rfl
      | createDirs => rfl
      | create => rfl
      | write inode written => rfl
      | rename => rfl
      | remove => rfl
  | reading name stage =>
      cases stage with
      | read inode got =>
          exact congrArg
            (fun bytes => (StoreCall.get name, CallProgress.seen bytes))
            (h.settled inode hreads.1).2
      | openFile => rfl
      | returned result => rfl

theorem owns_of_keeps {d : Disk ν β} (h : d.Keeps T o d')
    (hnamed : job.Named T) (hother : job.holds ≠ none → job.holds ≠ o)
    (howns : job.Owns d) : job.Owns d' := by
  cases job with
  | reading name stage => trivial
  | replacing r stage =>
      cases stage with
      | write inode written =>
          obtain ⟨hdir, hdata, hle⟩ := howns
          have ho : some r.tmp ≠ o := hother nofun
          refine ⟨?_, ?_, hle⟩
          · rw [h.dir r.tmp hnamed.1 ho, hdir]
          · rw [h.data r.tmp inode hnamed.1 ho hdir, hdata]
      | rename =>
          have howns : d.content r.tmp = some r.bytes := howns
          exact (h.content_tmp hnamed.1 (hother nofun)).trans howns
      | createDirs => trivial
      | create => trivial
      | remove => trivial
      | returned ok => trivial

theorem mem_set {a : FileJob ν β} (h : a ∈ s.jobs.set j job') :
    a = job' ∨ a ∈ s.jobs :=
  (List.mem_or_eq_of_mem_set h).symm

theorem getElem?_append_cases {α : Type*} {l : List α} {a b : α} {k : ℕ}
    (h : (l ++ [a])[k]? = some b) :
    l[k]? = some b ∨ k = l.length ∧ b = a := by
  rw [List.getElem?_append] at h
  split at h
  case isTrue => exact .inl h
  case isFalse hk =>
    obtain ⟨hlt, hget⟩ := List.getElem?_eq_some_iff.1 h
    have hzero : k - l.length = 0 := Nat.lt_one_iff.1 hlt
    refine .inr ⟨Nat.le_antisymm (Nat.sub_eq_zero_iff_le.1 hzero)
      (Nat.not_lt.1 hk), ?_⟩
    exact List.mem_singleton.1 (hget ▸ List.getElem_mem hlt)

theorem getElem?_set_cases {k : ℕ} {a : FileJob ν β}
    (h : (s.jobs.set j job')[k]? = some a) :
    k = j ∧ a = job' ∨ k ≠ j ∧ s.jobs[k]? = some a := by
  by_cases hkj : k = j
  · subst hkj
    have hlt : k < s.jobs.length := by
      simpa using (List.getElem?_eq_some_iff.1 h).1
    rw [List.getElem?_set_self hlt] at h
    exact .inl ⟨rfl, (Option.some.inj h).symm⟩
  · rw [List.getElem?_set_ne (Ne.symm hkj)] at h
    exact .inr ⟨hkj, h⟩

/-- The file that a system call is about is held by no other job. -/
theorem Sound.uses (hs : s.Sound T) {l : Label ν β} (hx : s.Exclusive l)
    (hl : l = .fail j ∨ ∃ n, l = .run j n) (hj : s.jobs[j]? = some job)
    (hlive : j ∉ s.stopped) :
    ∀ k a, k ≠ j → k ∉ s.stopped → s.jobs[k]? = some a → a.holds ≠ none →
      a.holds ≠ job.uses := by
  intro k a hne hk ha hholds heq
  have hheld : job.uses = job.holds → False := fun h =>
    hne (hs.apart k j a job ha hj hk hlive hholds (heq.trans h))
  cases job with
  | reading name stage => exact hheld rfl
  | replacing r stage =>
      cases stage with
      | create => exact hx j r hl hj k a hne hk ha heq
      | createDirs => exact hheld rfl
      | write inode written => exact hheld rfl
      | rename => exact hheld rfl
      | remove => exact hheld rfl
      | returned ok => exact hheld rfl

/-- A call that is made touches nothing. -/
theorem Sound.call (hs : s.Sound T) (hnamed : job.Named T)
    (hreads : ∀ d : Disk ν β, job.Reads T d) (howns : ∀ d, job.Owns d)
    (hholds : job.holds = none) :
    Sound T { s with jobs := s.jobs ++ [job] } := by
  refine ⟨fun a ha => ?_, fun a ha => ?_, fun k a ha hk => ?_,
    fun k l a b ha hb hk hl hne heq => ?_⟩
  · rcases List.mem_append.1 ha with ha | ha
    · exact hs.named a ha
    · exact List.mem_singleton.1 ha ▸ hnamed
  · rcases List.mem_append.1 ha with ha | ha
    · exact hs.reads a ha
    · rw [List.mem_singleton.1 ha]
      exact hreads _
  · rcases getElem?_append_cases ha with ha | ⟨-, rfl⟩
    · exact hs.owns k a ha hk
    · exact howns _
  · rcases getElem?_append_cases ha with ha' | ⟨-, rfl⟩
    · rcases getElem?_append_cases hb with hb' | ⟨-, rfl⟩
      · exact hs.apart k l a b ha' hb' hk hl hne heq
      · exact absurd hholds (heq ▸ hne)
    · exact absurd hholds hne

theorem Sound.stop (hs : s.Sound T) :
    Sound T { s with stopped := j :: s.stopped } where
  named := hs.named
  reads := hs.reads
  owns k a ha hk := hs.owns k a ha fun h => hk (List.mem_cons_of_mem _ h)
  apart k l a b ha hb hk hl := hs.apart k l a b ha hb
    (fun h => hk (List.mem_cons_of_mem _ h))
    fun h => hl (List.mem_cons_of_mem _ h)

variable [DecidableEq ν] [DecidablePred T]

/-- A system call of a job keeps every job in possession of its file, if no
other job holds the file that it is about. -/
theorem Sound.set (hs : s.Sound T)
    (hmoves : job.Moves T s.disk d' job')
    (hother : ∀ k a, k ≠ j → k ∉ s.stopped → s.jobs[k]? = some a →
      a.holds ≠ none → a.holds ≠ job.uses) :
    Sound T { s with disk := d', jobs := s.jobs.set j job' } where
  named a ha := by
    rcases mem_set ha with rfl | ha
    · exact hmoves.named
    · exact hs.named a ha
  reads a ha := by
    rcases mem_set ha with rfl | ha
    · exact hmoves.reads
    · exact reads_of_keeps hmoves.keeps (hs.reads a ha)
  owns k a ha hk := by
    rcases getElem?_set_cases ha with ⟨rfl, rfl⟩ | ⟨hne, ha⟩
    · exact hmoves.owns
    · exact owns_of_keeps hmoves.keeps (hs.named a (List.mem_of_getElem? ha))
        (hother k a hne hk ha) (hs.owns k a ha hk)
  apart k l a b ha hb hk hl hholds heq := by
    have hjob' : ∀ i c, i ≠ j → i ∉ s.stopped → s.jobs[i]? = some c →
        job'.holds ≠ none → c.holds ≠ job'.holds := by
      intro i c hne hi hc hjob heq
      rcases hmoves.holds with hnone | huses
      · exact hjob hnone
      · rw [huses] at hjob heq
        exact hother i c hne hi hc (heq ▸ hjob) heq
    rcases getElem?_set_cases ha with ⟨rfl, rfl⟩ | ⟨hkj, ha'⟩
    · rcases getElem?_set_cases hb with ⟨rfl, rfl⟩ | ⟨hlj, hb'⟩
      · rfl
      · exact absurd heq.symm (hjob' l b hlj hl hb' hholds)
    · rcases getElem?_set_cases hb with ⟨rfl, rfl⟩ | ⟨hlj, hb'⟩
      · exact absurd heq (hjob' k a hkj hk ha' (heq ▸ hholds))
      · exact hs.apart k l a b ha' hb' hk hl hholds heq

theorem view_set (hs : s.Sound T) (hmoves : job.Moves T s.disk d' job')
    (hj : s.jobs[j]? = some job) (value₀ : ν → Option (List β)) : ∃ ls,
      (AtomicStore.system value₀).Run (s.view T) ls
        (view T { s with disk := d', jobs := s.jobs.set j job' }) := by
  obtain ⟨ls, hrun⟩ := hmoves.follows value₀ (s.view T) j rfl (view_at hj)
  have hcalls : s.jobs.map (FileJob.call d') =
      s.jobs.map (FileJob.call s.disk) :=
    List.map_congr_left fun a ha => call_of_keeps hmoves.keeps (hs.reads a ha)
  refine ⟨ls, ?_⟩
  unfold view at hrun ⊢
  rw [List.map_set, hcalls]
  exact hrun

theorem view_call (hcall : (job.call s.disk).2 = .pending)
    (value₀ : ν → Option (List β)) : ∃ ls,
      (AtomicStore.system value₀).Run (s.view T) ls
        (view T { s with jobs := s.jobs ++ [job] }) := by
  refine ⟨[] ++ [.call], .snoc (.nil _) ?_⟩
  have hstep := AtomicStore.Step.call (s.view T) (job.call s.disk).1
  rw [← hcall] at hstep
  unfold view at hstep ⊢
  rw [List.map_append]
  exact hstep

variable [Inhabited β]

/-- The steps whose calls name files as they should, and in which no two jobs
come to use one temporary file. -/
def Orderly (T : ν → Prop) (s : Files ν β) (l : Label ν β) : Prop :=
  l.Named T ∧ s.Exclusive l

/-- One step keeps every job in possession of its file, and the store follows
it. -/
theorem step_orderly {l : Label ν β} (hs : s.Sound T) (hl : Orderly T s l)
    (h : next s l = some t) :
    t.Sound T ∧ ∀ value₀, ∃ ls,
      (AtomicStore.system value₀).Run (s.view T) ls (t.view T) := by
  obtain ⟨hnamed, hx⟩ := hl
  cases l with
  | replace r =>
      obtain rfl := Option.some.inj h
      have hstart : (FileJob.replace r).holds = none ∧
          ∀ d : Disk ν β, (FileJob.replace r).Owns d ∧
            ((FileJob.replace r).call d).2 = .pending := by
        unfold FileJob.replace
        split
        · exact ⟨rfl, fun d => ⟨trivial, rfl⟩⟩
        · exact ⟨rfl, fun d => ⟨trivial, rfl⟩⟩
      exact ⟨hs.call hnamed (fun d => trivial) (fun d => (hstart.2 d).1)
        hstart.1, view_call (hstart.2 _).2⟩
  | read name =>
      obtain rfl := Option.some.inj h
      exact ⟨hs.call hnamed (fun d => trivial) (fun d => trivial) rfl,
        view_call rfl⟩
  | run j n =>
      simp only [next] at h
      split at h
      case isTrue => cases h
      case isFalse hlive =>
        obtain ⟨job, hj, hp⟩ := Option.bind_eq_some_iff.1 h
        obtain ⟨⟨d', job'⟩, hrun, rfl⟩ := Option.map_eq_some_iff.1 hp
        have hmem := List.mem_of_getElem? hj
        have hmoves := FileJob.moves_of_run (hs.named job hmem)
          (hs.reads job hmem) (hs.owns j job hj hlive) hrun
        exact ⟨hs.set hmoves (hs.uses hx (.inr ⟨n, rfl⟩) hj hlive),
          view_set hs hmoves hj⟩
  | fail j =>
      simp only [next] at h
      split at h
      case isTrue => cases h
      case isFalse hlive =>
        obtain ⟨job, hj, hp⟩ := Option.bind_eq_some_iff.1 h
        obtain ⟨job', hfail, rfl⟩ := Option.map_eq_some_iff.1 hp
        have hmoves := FileJob.moves_of_fail (d := s.disk)
          (hs.named job (List.mem_of_getElem? hj)) hfail
        exact ⟨hs.set hmoves (hs.uses hx (.inl rfl) hj hlive),
          view_set hs hmoves hj⟩
  | stop j =>
      obtain rfl := Option.some.inj h
      exact ⟨hs.stop, fun _ => ⟨[], .nil _⟩⟩

omit [DecidablePred T] in
theorem Sound.init (h : (system ν β).init s) : s.Sound T := by
  obtain ⟨hjobs, -⟩ := h
  refine ⟨?_, ?_, ?_, ?_⟩ <;> simp [hjobs]

/-- The files that are not temporary are an atomic store in every orderly run,
however far its jobs have come and whichever of them have stopped. -/
theorem Sound.run {ls : List (Label ν β)} (hs : s.Sound T)
    (h : ((system ν β).restrict (Orderly T)).Run s ls t)
    (value₀ : ν → Option (List β)) :
    t.Sound T ∧ ∃ ks,
      (AtomicStore.system value₀).Run (s.view T) ks (t.view T) := by
  have hstep : ∀ s l t, ((system ν β).restrict (Orderly T)).step s l t →
      s.Sound T → t.Sound T :=
    fun _ _ _ hstep hs => (step_orderly hs hstep.2 hstep.1).1
  have hview : ∀ s l t, ((system ν β).restrict (Orderly T)).step s l t →
      s.Sound T → ∃ ks,
        (AtomicStore.system value₀).Run (s.view T) ks (t.view T) :=
    fun _ _ _ hstep hs => (step_orderly hs hstep.2 hstep.1).2 value₀
  exact h.simulate hstep hview hs

end Files

/-! ## What is left behind -/

section Leftovers

variable {ν β : Type*} [DecidableEq ν] [Inhabited β] {T : ν → Prop} {a : ν}
  {d d' : Disk ν β} {job job' : FileJob ν β} {n : ℕ} {s t : Files ν β}

/-- The job may have left its temporary file. -/
def FileJob.Leaves (a : ν) : FileJob ν β → Prop
  | replacing r (.returned ok) => r.tmp = a ∧ ok = false ∧ r.cleansUp = false
  | job => job.holds = some a

omit [DecidableEq ν] [Inhabited β] in
theorem FileJob.named_of_plan (h : job'.plan = job.plan)
    (hnamed : job.Named T) : job'.Named T := by
  cases job <;> cases job' <;> cases h <;> exact hnamed

theorem FileJob.leaves_of_run (hnamed : job.Named T) (ha : T a)
    (h : job.run d n = some (d', job')) (hdir : d'.dir a ≠ none)
    (hleaves : ¬job'.Leaves a) : d.dir a ≠ none ∧ ¬job.Leaves a := by
  cases job with
  | reading name stage =>
      have hd : d' = d := by
        cases stage with
        | openFile => exact (Prod.mk.inj (Option.some.inj h)).1.symm
        | read inode got =>
            simp only [run] at h
            split at h
            · split at h
              · exact (Prod.mk.inj (Option.some.inj h)).1.symm
              · cases h
            · exact (Prod.mk.inj (Option.some.inj h)).1.symm
        | returned result => cases h
      subst hd
      exact ⟨hdir, fun h => by cases h⟩
  | replacing r stage =>
      obtain ⟨ht, hdst⟩ := hnamed
      cases stage with
      | createDirs =>
          obtain ⟨rfl, -⟩ := Prod.mk.inj (Option.some.inj h)
          exact ⟨hdir, fun h => by cases h⟩
      | create =>
          obtain ⟨rfl, rfl⟩ := Prod.mk.inj (Option.some.inj h)
          have hne : a ≠ r.tmp := fun h => hleaves (congrArg some h.symm)
          rw [Disk.dir_create_of_ne hne] at hdir
          exact ⟨hdir, fun h => by cases h⟩
      | write inode written =>
          simp only [run] at h
          split at h
          · split at h
            · obtain ⟨rfl, rfl⟩ := Prod.mk.inj (Option.some.inj h)
              exact ⟨hdir, hleaves⟩
            · cases h
          · obtain ⟨rfl, rfl⟩ := Prod.mk.inj (Option.some.inj h)
            exact ⟨hdir, hleaves⟩
      | rename =>
          obtain ⟨d₁, hrename, hp⟩ := Option.map_eq_some_iff.1 h
          obtain ⟨rfl, rfl⟩ := Prod.mk.inj hp
          obtain rfl := Disk.rename_eq_some hrename
          have hne : a ≠ r.tmp := by
            rintro rfl
            exact hdir (Disk.dir_move_old (ne_tmp ha hdst).symm)
          rw [Disk.dir_move_of_ne (ne_tmp ha hdst).symm hne] at hdir
          exact ⟨hdir, fun h => hne (Option.some.inj h).symm⟩
      | remove =>
          obtain ⟨d₁, hremove, hp⟩ := Option.map_eq_some_iff.1 h
          obtain ⟨rfl, rfl⟩ := Prod.mk.inj hp
          obtain rfl := Disk.remove_eq_some hremove
          have hne : a ≠ r.tmp := by
            rintro rfl
            exact hdir Disk.dir_unlink_self
          rw [Disk.dir_unlink_of_ne hne] at hdir
          exact ⟨hdir, fun h => hne (Option.some.inj h).symm⟩
      | returned ok => cases h

omit [DecidableEq ν] [Inhabited β] in
/-- A removal that succeeds is the only way for a job to be rid of its file
other than renaming it. -/
theorem FileJob.leaves_of_fail (h : job.fail = some job')
    (hremove : ∀ r, job ≠ .replacing r .remove) (hleaves : ¬job'.Leaves a) :
    ¬job.Leaves a := by
  have hgiveUp : ∀ r : FileReplacement ν β,
      ¬(giveUp r).Leaves a → r.tmp ≠ a := by
    intro r hr
    unfold giveUp at hr
    split at hr
    · exact fun h => hr (congrArg some h)
    · rename_i hclean
      exact fun h => hr ⟨h, rfl, by simpa using hclean⟩
  cases job with
  | reading name stage => exact nofun
  | replacing r stage =>
      cases stage with
      | createDirs => exact nofun
      | create => exact nofun
      | write inode written =>
          obtain rfl := Option.some.inj h
          exact fun h => hgiveUp r hleaves (Option.some.inj h)
      | rename =>
          obtain rfl := Option.some.inj h
          exact fun h => hgiveUp r hleaves (Option.some.inj h)
      | remove => exact absurd rfl (hremove r)
      | returned ok => cases h

/-- No removal of a temporary file fails. -/
def Files.Removing (s : Files ν β) (l : Files.Label ν β) : Prop :=
  ∀ j r, l = .fail j → s.jobs[j]? ≠ some (.replacing r .remove)

/-- Every temporary file was there at the start, or some job has left it. -/
def Files.Accounted (T : ν → Prop) (d₀ : Disk ν β) (s : Files ν β) : Prop :=
  (∀ job ∈ s.jobs, job.Named T) ∧
    ∀ a, T a → s.disk.dir a ≠ none →
      d₀.dir a ≠ none ∨ ∃ job ∈ s.jobs, job.Leaves a

omit [DecidableEq ν] [Inhabited β] in
theorem Files.Accounted.call {d₀ : Disk ν β} (hs : s.Accounted T d₀)
    (hnamed : job.Named T) :
    Accounted T d₀ { s with jobs := s.jobs ++ [job] } := by
  refine ⟨fun a ha => ?_, fun a ha hdir => ?_⟩
  · rcases List.mem_append.1 ha with ha | ha
    · exact hs.1 a ha
    · exact List.mem_singleton.1 ha ▸ hnamed
  · refine (hs.2 a ha hdir).imp_right fun ⟨job', hmem, hleaves⟩ => ?_
    exact ⟨job', List.mem_append_left _ hmem, hleaves⟩

omit [DecidableEq ν] [Inhabited β] in
theorem Files.Accounted.set {d₀ : Disk ν β} {j : ℕ} (hs : s.Accounted T d₀)
    (hj : s.jobs[j]? = some job) (hnamed : job'.Named T)
    (hleaves : ∀ a, T a → d'.dir a ≠ none → ¬job'.Leaves a →
      s.disk.dir a ≠ none ∧ ¬job.Leaves a) :
    Accounted T d₀ { s with disk := d', jobs := s.jobs.set j job' } := by
  have hlt := (List.getElem?_eq_some_iff.1 hj).1
  refine ⟨fun a ha => ?_, fun a ha hdir => ?_⟩
  · rcases mem_set ha with rfl | ha
    · exact hnamed
    · exact hs.1 a ha
  · by_cases hjob' : job'.Leaves a
    · exact .inr ⟨job', List.mem_set hlt _, hjob'⟩
    · obtain ⟨hbefore, hjob⟩ := hleaves a ha hdir hjob'
      refine (hs.2 a ha hbefore).imp_right fun ⟨b, hmem, hb⟩ => ?_
      obtain ⟨k, hk⟩ := List.getElem?_of_mem hmem
      have hkj : j ≠ k := by
        rintro rfl
        rw [hj] at hk
        exact hjob (Option.some.inj hk ▸ hb)
      refine ⟨b, List.mem_of_getElem? (i := k) ?_, hb⟩
      rw [List.getElem?_set_ne hkj, hk]

/-- One step leaves no temporary file that no job has left. -/
theorem Files.step_accounted {d₀ : Disk ν β} {l : Label ν β}
    (hs : s.Accounted T d₀) (hnamed : l.Named T) (hremove : s.Removing l)
    (h : next s l = some t) : t.Accounted T d₀ := by
  cases l with
  | replace r =>
      obtain rfl := Option.some.inj h
      exact hs.call hnamed
  | read name =>
      obtain rfl := Option.some.inj h
      exact hs.call hnamed
  | run j n =>
      simp only [next] at h
      split at h
      case isTrue => cases h
      case isFalse =>
        obtain ⟨job, hj, hp⟩ := Option.bind_eq_some_iff.1 h
        obtain ⟨⟨d', job'⟩, hrun, rfl⟩ := Option.map_eq_some_iff.1 hp
        have hjob := hs.1 job (List.mem_of_getElem? hj)
        have hjob' := FileJob.named_of_plan (FileJob.plan_of_run hrun) hjob
        exact hs.set hj hjob' fun a ha hdir hleaves =>
          FileJob.leaves_of_run hjob ha hrun hdir hleaves
  | fail j =>
      simp only [next] at h
      split at h
      case isTrue => cases h
      case isFalse =>
        obtain ⟨job, hj, hp⟩ := Option.bind_eq_some_iff.1 h
        obtain ⟨job', hfail, rfl⟩ := Option.map_eq_some_iff.1 hp
        have hjob := hs.1 job (List.mem_of_getElem? hj)
        have hjob' := FileJob.named_of_plan (FileJob.plan_of_fail hfail) hjob
        refine hs.set hj hjob' fun a ha hdir hleaves =>
          ⟨hdir, FileJob.leaves_of_fail hfail ?_ hleaves⟩
        rintro r rfl
        exact hremove j r rfl hj
  | stop j =>
      obtain rfl := Option.some.inj h
      exact hs

end Leftovers

end Tempr.Support
