import Tempr.Support.AtomicStore
import Tempr.Support.Disk

/-!
# Jobs on files

Jobs that read files, and jobs that write a temporary file and then rename it
onto their destination, one system call after another; and what each system call
does to the store that the files are.
-/

namespace Tempr.Support

/-- What a replacement writes, and where. -/
structure FileReplacement (ν β : Type*) where
  tmp : ν
  dst : ν
  bytes : List β
  /-- directories are made first -/
  createsDirs : Bool
  /-- the temporary file is removed when writing or renaming fails -/
  cleansUp : Bool

inductive ReplaceStage
  | createDirs
  | create
  | write (inode written : ℕ)
  | rename
  | remove
  | returned (ok : Bool)
  deriving DecidableEq

inductive ReadResult (β : Type*)
  | found (bytes : List β)
  | notFound
  | failed
  deriving DecidableEq

def ReadResult.answer {β : Type*} : ReadResult β → StoreAnswer (List β)
  | found bytes => .found bytes
  | notFound => .notFound
  | failed => .failed

inductive ReadStage (β : Type*)
  | openFile
  | read (inode : ℕ) (got : List β)
  | returned (result : ReadResult β)

inductive FileJob (ν β : Type*)
  | replacing (r : FileReplacement ν β) (stage : ReplaceStage)
  | reading (name : ν) (stage : ReadStage β)

namespace FileJob

variable {ν β : Type*} [DecidableEq ν] [Inhabited β]

/-- What becomes of a replacement when the call under way fails. -/
def giveUp (r : FileReplacement ν β) : FileJob ν β :=
  .replacing r (if r.cleansUp then .remove else .returned false)

/-- The next system call, which moves `n` bytes if it moves any. -/
def run (disk : Disk ν β) (n : ℕ) :
    FileJob ν β → Option (Disk ν β × FileJob ν β)
  | replacing r .createDirs => some (disk, .replacing r .create)
  | replacing r .create =>
      some (disk.create r.tmp, .replacing r (.write (disk.inodeFor r.tmp) 0))
  | replacing r (.write inode written) =>
      if written < r.bytes.length then
        if 0 < n ∧ written + n ≤ r.bytes.length then
          some (disk.writeAt inode written ((r.bytes.drop written).take n),
            .replacing r (.write inode (written + n)))
        else none
      else some (disk, .replacing r .rename)
  | replacing r .rename =>
      (disk.rename r.tmp r.dst).map fun d => (d, .replacing r (.returned true))
  | replacing r .remove =>
      (disk.remove r.tmp).map fun d => (d, .replacing r (.returned false))
  | replacing _ (.returned _) => none
  | reading name .openFile =>
      some (disk, .reading name
        (match disk.dir name with
        | some inode => .read inode []
        | none => .returned .notFound))
  | reading name (.read inode got) =>
      if got.length < (disk.data inode).length then
        if 0 < n then
          some (disk,
            .reading name (.read inode (got ++ disk.readAt inode got.length n)))
        else none
      -- nothing more was read: this is the end of the file
      else some (disk, .reading name (.returned (.found got)))
  | reading _ (.returned _) => none

/-- The next system call fails. -/
def fail : FileJob ν β → Option (FileJob ν β)
  | replacing r .createDirs => some (.replacing r (.returned false))
  | replacing r .create => some (giveUp r)
  | replacing r (.write _ _) => some (giveUp r)
  | replacing r .rename => some (giveUp r)
  -- the error of the removal is ignored
  | replacing r .remove => some (.replacing r (.returned false))
  | replacing _ (.returned _) => none
  | reading name .openFile => some (.reading name (.returned .failed))
  | reading name (.read _ _) => some (.reading name (.returned .failed))
  | reading _ (.returned _) => none

/-- The job at its start. -/
def replace (r : FileReplacement ν β) : FileJob ν β :=
  .replacing r (if r.createsDirs then .createDirs else .create)

def read (name : ν) : FileJob ν β :=
  .reading name .openFile

end FileJob

/-- The jobs of one disk.  A job stops for good when its process ends, or when
nobody waits for it any more. -/
structure Files (ν β : Type*) where
  disk : Disk ν β
  jobs : List (FileJob ν β)
  stopped : List ℕ

namespace Files

inductive Label (ν β : Type*)
  | replace (r : FileReplacement ν β)
  | read (name : ν)
  | run (j n : ℕ)
  | fail (j : ℕ)
  | stop (j : ℕ)

variable {ν β : Type*} [DecidableEq ν] [Inhabited β]

def next (s : Files ν β) : Label ν β → Option (Files ν β)
  | .replace r => some { s with jobs := s.jobs ++ [.replace r] }
  | .read name => some { s with jobs := s.jobs ++ [.read name] }
  | .run j n =>
      if j ∈ s.stopped then none
      else s.jobs[j]?.bind fun job => (job.run s.disk n).map fun p =>
        { s with disk := p.1, jobs := s.jobs.set j p.2 }
  | .fail j =>
      if j ∈ s.stopped then none
      else s.jobs[j]?.bind fun job => job.fail.map fun job =>
        { s with jobs := s.jobs.set j job }
  | .stop j => some { s with stopped := j :: s.stopped }

/-- Any disk, and no jobs. -/
def system (ν β : Type*) [DecidableEq ν] [Inhabited β] :
    System (Files ν β) (Label ν β) :=
  .ofNext (fun s => s.jobs = [] ∧ s.stopped = []) next

end Files

/-! ## Temporary names -/

section Names

variable {ν β : Type*}

/-- The temporary file that the job has made, or is about to remove. -/
def FileJob.holds : FileJob ν β → Option ν
  | replacing r (.write _ _) => some r.tmp
  | replacing r .rename => some r.tmp
  | replacing r .remove => some r.tmp
  | _ => none

/-- The temporary file that the next system call is about. -/
def FileJob.uses : FileJob ν β → Option ν
  | replacing r .create => some r.tmp
  | job => job.holds

variable (T : ν → Prop)

/-- Only temporary files have names in `T`. -/
def Files.Label.Named : Files.Label ν β → Prop
  | replace r => T r.tmp ∧ ¬T r.dst
  | read name => ¬T name
  | _ => True

/-- What the job is to do. -/
def FileJob.plan : FileJob ν β → FileReplacement ν β ⊕ ν
  | replacing r _ => .inl r
  | reading name _ => .inr name

/-- No job comes to use a temporary file that another one holds. -/
def Files.Exclusive (s : Files ν β) (l : Files.Label ν β) : Prop :=
  ∀ j r, (l = .fail j ∨ ∃ n, l = .run j n) →
    s.jobs[j]? = some (.replacing r .create) →
      ∀ k job, k ≠ j → k ∉ s.stopped → s.jobs[k]? = some job →
        job.holds ≠ some r.tmp

def FileJob.Named : FileJob ν β → Prop
  | replacing r _ => T r.tmp ∧ ¬T r.dst
  | reading name _ => ¬T name

/-- An inode that no temporary name leads to. -/
def Disk.Settled (d : Disk ν β) (i : ℕ) : Prop :=
  i < d.next ∧ ∀ a, T a → d.dir a ≠ some i

/-- What is read is a part of a file that is written no more. -/
def FileJob.Reads (d : Disk ν β) : FileJob ν β → Prop
  | reading _ (.read inode got) => d.Settled T inode ∧ got <+: d.data inode
  | _ => True

/-- The temporary file holds what has been written. -/
def FileJob.Owns (d : Disk ν β) : FileJob ν β → Prop
  | replacing r (.write inode written) => d.dir r.tmp = some inode ∧
      d.data inode = r.bytes.take written ∧ written ≤ r.bytes.length
  | replacing r .rename => d.content r.tmp = some r.bytes
  | _ => True

/-- Temporary files other than `o`, and files that are written no more, are left
alone. -/
structure Disk.Keeps (o : Option ν) (d d' : Disk ν β) : Prop where
  dir : ∀ a, T a → some a ≠ o → d'.dir a = d.dir a
  data : ∀ a i, T a → some a ≠ o → d.dir a = some i → d'.data i = d.data i
  settled : ∀ i, d.Settled T i → d'.Settled T i ∧ d'.data i = d.data i

/-- A name that is not temporary is not that of a temporary file. -/
theorem ne_tmp {ν : Type*} {T : ν → Prop} {tmp a : ν} (ht : T tmp)
    (ha : ¬T a) : a ≠ tmp := by
  rintro rfl
  exact ha ht

end Names

/-! ## System calls -/

namespace Disk

variable {ν β : Type*} [DecidableEq ν] {T : ν → Prop} {d d' : Disk ν β}
  {tmp dst a : ν} {i : ℕ} {o : Option ν}

omit [DecidableEq ν] in
theorem Keeps.refl : d.Keeps T o d :=
  ⟨fun _ _ _ => rfl, fun _ _ _ _ _ => rfl, fun _ h => ⟨h, rfl⟩⟩

omit [DecidableEq ν] in
/-- A file that is not temporary has an inode that is written no more. -/
theorem settled_of_dir (ha : ¬T a) (h : d.dir a = some i) : d.Settled T i := by
  refine ⟨d.lt_next a i h, fun b hb hbi => ?_⟩
  rw [d.injective a b i h hbi] at ha
  exact ha hb

omit [DecidableEq ν] in
theorem Keeps.content (h : d.Keeps T o d') (ha : ¬T a)
    (hdir : d'.dir a = d.dir a) : d'.content a = d.content a := by
  unfold Disk.content
  rw [hdir]
  cases hi : d.dir a with
  | none => rfl
  | some i =>
      exact congrArg some (h.settled i (settled_of_dir ha hi)).2

omit [DecidableEq ν] in
theorem Keeps.content_tmp (h : d.Keeps T o d') (ha : T a) (ho : some a ≠ o) :
    d'.content a = d.content a := by
  unfold Disk.content
  rw [h.dir a ha ho]
  cases hi : d.dir a with
  | none => rfl
  | some i => exact congrArg some (h.data a i ha ho hi)

theorem keeps_create (ht : T tmp) : d.Keeps T (some tmp) (d.create tmp) where
  dir a _ hne := dir_create_of_ne (mt (congrArg some) hne)
  data a i _ hne hi := by
    apply data_create_of_ne
    rintro rfl
    exact hne (congrArg some (eq_of_dir_inodeFor hi))
  settled i hi := by
    have hne : i ≠ d.inodeFor tmp := by
      unfold inodeFor
      cases htmp : d.dir tmp with
      | none => exact Nat.ne_of_lt hi.1
      | some k =>
          rintro rfl
          exact hi.2 tmp ht htmp
    refine ⟨⟨Nat.lt_of_lt_of_le hi.1 (Nat.le_max_left _ _), fun b hb => ?_⟩,
      data_create_of_ne hne⟩
    by_cases hbt : b = tmp
    · subst hbt
      rw [dir_create_self]
      exact fun h => hne (Option.some.inj h).symm
    · rw [dir_create_of_ne hbt]
      exact hi.2 b hb

omit [DecidableEq ν] in
theorem keeps_writeAt [Inhabited β] (ht : T tmp) (h : d.dir tmp = some i)
    (pos : ℕ) (bytes : List β) :
    d.Keeps T (some tmp) (d.writeAt i pos bytes) where
  dir _ _ _ := rfl
  data a k _ hne hk := by
    apply data_writeAt_of_ne
    rintro rfl
    exact hne (congrArg some (d.injective a tmp k hk h))
  settled k hk := by
    refine ⟨hk, data_writeAt_of_ne ?_⟩
    rintro rfl
    exact hk.2 tmp ht h

theorem keeps_unlink : d.Keeps T (some tmp) (d.unlink tmp) where
  dir a _ hne := dir_unlink_of_ne (mt (congrArg some) hne)
  data _ _ _ _ _ := rfl
  settled i hi := by
    refine ⟨⟨hi.1, fun b hb => ?_⟩, rfl⟩
    by_cases hbt : b = tmp
    · subst hbt
      rw [dir_unlink_self]
      exact nofun
    · rw [dir_unlink_of_ne hbt]
      exact hi.2 b hb

theorem keeps_move (ht : T tmp) (hdst : ¬T dst) :
    d.Keeps T (some tmp) (d.move tmp dst) := by
  have hne : ∀ a, T a → a ≠ dst := fun a ha => (ne_tmp ha hdst).symm
  refine ⟨fun a ha hat => dir_move_of_ne (hne a ha) (mt (congrArg some) hat),
    fun _ _ _ _ _ => rfl, fun i hi => ⟨⟨hi.1, fun b hb => ?_⟩, rfl⟩⟩
  by_cases hbt : b = tmp
  · subst hbt
    rw [dir_move_old (hne b ht)]
    exact nofun
  · rw [dir_move_of_ne (hne b hb) hbt]
    exact hi.2 b hb

end Disk

/-! ## The store that jobs use -/

section View

variable {ν β : Type*} (T : ν → Prop) [DecidablePred T]

/-- The files that are not temporary. -/
def Disk.values (d : Disk ν β) (name : ν) : Option (List β) :=
  if T name then none else d.content name

/-- A job as a call of the store.  A file that has been opened is seen with all
that it holds. -/
def FileJob.call (d : Disk ν β) :
    FileJob ν β → StoreCall ν (List β) × CallProgress (List β)
  | replacing r (.returned true) =>
      (.put r.dst r.bytes, .answered .written)
  | replacing r (.returned false) =>
      (.put r.dst r.bytes, .answered .failed)
  | replacing r .remove => (.put r.dst r.bytes, .answered .failed)
  | replacing r _ => (.put r.dst r.bytes, .pending)
  | reading name .openFile => (.get name, .pending)
  | reading name (.read inode _) => (.get name, .seen (d.data inode))
  | reading name (.returned result) => (.get name, .answered result.answer)

def Files.view (s : Files ν β) : AtomicStore ν (List β) where
  value := s.disk.values T
  calls := s.jobs.map (FileJob.call s.disk)

variable {T}

theorem Disk.values_of_not {d : Disk ν β} {name : ν} (h : ¬T name) :
    d.values T name = d.content name :=
  if_neg h

theorem Files.view_at {s : Files ν β} {j : ℕ} {job : FileJob ν β}
    (h : s.jobs[j]? = some job) :
    (s.view T).At j (job.call s.disk).1 (job.call s.disk).2 := by
  rw [AtomicStore.At, Files.view, List.getElem?_map, h]
  rfl

/-- The files that are not temporary keep their contents. -/
theorem Disk.Keeps.values {d d' : Disk ν β} {o : Option ν} 
    (h : d.Keeps T o d') (hdir : ∀ a, ¬T a → d'.dir a = d.dir a) :
    d'.values T = d.values T := by
  funext a
  unfold Disk.values
  split
  · rfl
  · rename_i ha
    exact h.content ha (hdir a ha)

end View

/-! ## What a system call does -/

section Moves

variable {ν β : Type*} [DecidableEq ν] {T : ν → Prop} [DecidablePred T]
  {d d' : Disk ν β} {job job' : FileJob ν β} {n : ℕ}

/-- The store follows the job from `call` to `call'` by no step or one. -/
def FileJob.Follows (T : ν → Prop) [DecidablePred T] (d d' : Disk ν β)
    (job job' : FileJob ν β) : Prop :=
  ∀ value₀, ∀ s : AtomicStore ν (List β), ∀ j, s.value = d.values T →
    s.At j (job.call d).1 (job.call d).2 → ∃ ls,
      (AtomicStore.system value₀).Run s ls
        { value := d'.values T, calls := s.calls.set j (job'.call d') }

/-- What a system call of a job does, by one that succeeds or fails. -/
structure FileJob.Moves (T : ν → Prop) [DecidablePred T] (d d' : Disk ν β)
    (job job' : FileJob ν β) : Prop where
  keeps : d.Keeps T job.uses d'
  named : job'.Named T
  reads : job'.Reads T d'
  owns : job'.Owns d'
  holds : job'.holds = none ∨ job'.holds = job.uses
  follows : job.Follows T d d' job'

theorem FileJob.follows_of_eq (hvalue : d'.values T = d.values T)
    (hcall : job'.call d' = job.call d) : job.Follows T d d' job' := by
  intro value₀ s j hs hj
  have hset : s.calls.set j (job'.call d') = s.calls := by
    obtain ⟨hlt, hget⟩ := List.getElem?_eq_some_iff.1 hj
    have hget : s.calls[j] = job.call d := hget
    rw [hcall, ← hget, List.set_getElem_self]
  rw [hset, hvalue, ← hs]
  exact ⟨[], .nil s⟩

theorem FileJob.follows_of_step
    (h : ∀ (s : AtomicStore ν (List β)) (j : ℕ), s.value = d.values T →
      s.At j (job.call d).1 (job.call d).2 → ∃ l, AtomicStore.Step s l
        { value := d'.values T, calls := s.calls.set j (job'.call d') }) :
    job.Follows T d d' job' := by
  intro value₀ s j hs hj
  obtain ⟨l, hstep⟩ := h s j hs hj
  exact ⟨[] ++ [l], .snoc (.nil s) hstep⟩

/-- A call that was not answered is refused. -/
theorem FileJob.follows_of_refused
    (hpending : ∀ a, (job.call d).2 ≠ .answered a)
    (hcall : job'.call d = ((job.call d).1, .answered .failed)) :
    job.Follows T d d job' := by
  refine follows_of_step fun s j hs hj => ⟨.refuse j, ?_⟩
  rw [hcall, ← hs]
  exact .refuse hj hpending

theorem Disk.values_move {tmp dst : ν} {bytes : List β} (ht : T tmp)
    (hdst : ¬T dst) (hbytes : d.content tmp = some bytes) :
    (d.move tmp dst).values T =
      Function.update (d.values T) dst (some bytes) := by
  funext a
  by_cases ha : T a
  · have hne : a ≠ dst := (ne_tmp ha hdst).symm
    rw [Function.update_of_ne hne, Disk.values, Disk.values, if_pos ha,
      if_pos ha]
  · rw [Disk.values_of_not ha]
    by_cases hne : a = dst
    · subst hne
      rw [Function.update_self, ← hbytes]
      exact congrArg (Option.map d.data) Disk.dir_move_new
    · have hat : a ≠ tmp := by
        rintro rfl
        exact ha ht
      rw [Function.update_of_ne hne, Disk.values_of_not ha]
      exact congrArg (Option.map d.data) (Disk.dir_move_of_ne hne hat)

theorem FileJob.moves_giveUp {r : FileReplacement ν β} {stage : ReplaceStage}
    (ht : T r.tmp ∧ ¬T r.dst)
    (huses : (FileJob.replacing r stage).uses = some r.tmp)
    (hcall : (FileJob.replacing r stage).call d =
      (.put r.dst r.bytes, .pending)) :
    (FileJob.replacing r stage).Moves T d d (.giveUp r) := by
  have hrefused : (FileJob.giveUp r).call d =
      (.put r.dst r.bytes, .answered .failed) := by
    unfold giveUp
    split <;> rfl
  refine ⟨.refl, ht, trivial, ?_, ?_, follows_of_refused ?_ ?_⟩
  · unfold giveUp
    split <;> trivial
  · rw [huses]
    unfold giveUp
    split
    · exact .inr rfl
    · exact .inl rfl
  · rw [hcall]
    exact nofun
  · rw [hcall, hrefused]

theorem FileJob.moves_of_fail (hnamed : job.Named T)
    (h : job.fail = some job') : job.Moves T d d job' := by
  cases job with
  | replacing r stage =>
      cases stage with
      | createDirs =>
          obtain rfl := Option.some.inj h
          exact ⟨.refl, hnamed, trivial, trivial, .inl rfl,
            follows_of_refused nofun rfl⟩
      | create =>
          obtain rfl := Option.some.inj h
          exact moves_giveUp hnamed rfl rfl
      | write inode written =>
          obtain rfl := Option.some.inj h
          exact moves_giveUp hnamed rfl rfl
      | rename =>
          obtain rfl := Option.some.inj h
          exact moves_giveUp hnamed rfl rfl
      | remove =>
          obtain rfl := Option.some.inj h
          exact ⟨.refl, hnamed, trivial, trivial, .inl rfl,
            follows_of_eq rfl rfl⟩
      | returned ok => cases h
  | reading name stage =>
      cases stage with
      | openFile =>
          obtain rfl := Option.some.inj h
          exact ⟨.refl, hnamed, trivial, trivial, .inl rfl,
            follows_of_refused nofun rfl⟩
      | read inode got =>
          obtain rfl := Option.some.inj h
          exact ⟨.refl, hnamed, trivial, trivial, .inl rfl,
            follows_of_refused nofun rfl⟩
      | returned result => cases h

variable [Inhabited β]

theorem FileJob.moves_replacing {r : FileReplacement ν β} {stage : ReplaceStage}
    (hnamed : (FileJob.replacing r stage).Named T)
    (howns : (FileJob.replacing r stage).Owns d)
    (h : (FileJob.replacing r stage).run d n = some (d', job')) :
    (FileJob.replacing r stage).Moves T d d' job' := by
  obtain ⟨ht, hdst⟩ := hnamed
  cases stage with
  | createDirs =>
      obtain ⟨rfl, rfl⟩ := Prod.mk.inj (Option.some.inj h)
      exact ⟨.refl, ⟨ht, hdst⟩, trivial, trivial, .inl rfl,
        follows_of_eq rfl rfl⟩
  | create =>
      obtain ⟨rfl, rfl⟩ := Prod.mk.inj (Option.some.inj h)
      have hkeeps := Disk.keeps_create (d := d) ht
      exact ⟨hkeeps, ⟨ht, hdst⟩, trivial,
        ⟨Disk.dir_create_self, Disk.data_create_self, Nat.zero_le _⟩, .inr rfl,
        follows_of_eq (hkeeps.values fun a ha =>
          Disk.dir_create_of_ne (ne_tmp ht ha)) rfl⟩
  | write inode written =>
      obtain ⟨hdir, hdata, hle⟩ := howns
      simp only [FileJob.run] at h
      split at h
      case isTrue hlt =>
        split at h
        case isFalse => cases h
        case isTrue hn =>
          obtain ⟨rfl, rfl⟩ := Prod.mk.inj (Option.some.inj h)
          have hkeeps := Disk.keeps_writeAt ht hdir written
            ((r.bytes.drop written).take n)
          have hwritten : (d.writeAt inode written
              ((r.bytes.drop written).take n)).data inode =
                r.bytes.take (written + n) := by
            rw [Disk.data_writeAt_self, hdata, Disk.overwrite_take hle]
          exact ⟨hkeeps, ⟨ht, hdst⟩, trivial, ⟨hdir, hwritten, hn.2⟩,
            .inr rfl, follows_of_eq (hkeeps.values fun _ _ => rfl) rfl⟩
      case isFalse hlt =>
        obtain ⟨rfl, rfl⟩ := Prod.mk.inj (Option.some.inj h)
        have hall : d.content r.tmp = some r.bytes := by
          rw [Disk.content, hdir, Option.map_some, hdata,
            List.take_of_length_le (Nat.not_lt.1 hlt)]
        exact ⟨.refl, ⟨ht, hdst⟩, trivial, hall, .inr rfl,
          follows_of_eq rfl rfl⟩
  | rename =>
      obtain ⟨d₁, hrename, hp⟩ := Option.map_eq_some_iff.1 h
      obtain ⟨rfl, rfl⟩ := Prod.mk.inj hp
      obtain rfl := Disk.rename_eq_some hrename
      refine ⟨Disk.keeps_move ht hdst, ⟨ht, hdst⟩, trivial, trivial, .inl rfl,
        follows_of_step fun s j hs hj => ⟨.put j, ?_⟩⟩
      rw [Disk.values_move ht hdst howns, ← hs]
      exact .put hj
  | remove =>
      obtain ⟨d₁, hremove, hp⟩ := Option.map_eq_some_iff.1 h
      obtain ⟨rfl, rfl⟩ := Prod.mk.inj hp
      obtain rfl := Disk.remove_eq_some hremove
      have hkeeps : d.Keeps T (some r.tmp) (d.unlink r.tmp) := Disk.keeps_unlink
      exact ⟨hkeeps, ⟨ht, hdst⟩, trivial, trivial, .inl rfl,
        follows_of_eq (hkeeps.values fun a ha =>
          Disk.dir_unlink_of_ne (ne_tmp ht ha)) rfl⟩
  | returned ok => cases h

theorem FileJob.moves_reading {name : ν} {stage : ReadStage β}
    (hnamed : ¬T name) (hreads : (FileJob.reading name stage).Reads T d)
    (h : (FileJob.reading name stage).run d n = some (d', job')) :
    (FileJob.reading name stage).Moves T d d' job' := by
  cases stage with
  | openFile =>
      obtain ⟨rfl, rfl⟩ := Prod.mk.inj (Option.some.inj h)
      cases hdir : d.dir name with
      | none =>
          refine ⟨.refl, hnamed, trivial, trivial, .inl rfl,
            follows_of_step fun s j hs hj => ⟨.look j, ?_⟩⟩
          rw [← hs]
          refine .miss hj ?_
          rw [hs, Disk.values_of_not hnamed, Disk.content, hdir,
            Option.map_none]
      | some i =>
          refine ⟨.refl, hnamed,
            ⟨Disk.settled_of_dir hnamed hdir, List.nil_prefix⟩, trivial,
            .inl rfl, follows_of_step fun s j hs hj => ⟨.look j, ?_⟩⟩
          rw [← hs]
          refine .look hj ?_
          rw [hs, Disk.values_of_not hnamed, Disk.content, hdir,
            Option.map_some]
  | read inode got =>
      obtain ⟨hsettled, hgot⟩ := hreads
      simp only [FileJob.run] at h
      split at h
      case isTrue hlt =>
        split at h
        case isFalse => cases h
        case isTrue hn =>
          obtain ⟨rfl, rfl⟩ := Prod.mk.inj (Option.some.inj h)
          exact ⟨.refl, hnamed, ⟨hsettled, Disk.append_readAt hgot n⟩, trivial,
            .inl rfl, follows_of_eq rfl rfl⟩
      case isFalse hlt =>
        obtain ⟨rfl, rfl⟩ := Prod.mk.inj (Option.some.inj h)
        have hall : got = d.data inode :=
          hgot.eq_of_length_le (Nat.not_lt.1 hlt)
        subst hall
        refine ⟨.refl, hnamed, trivial, trivial, .inl rfl,
          follows_of_step fun s j hs hj => ⟨.answer j, ?_⟩⟩
        rw [← hs]
        exact .answer hj
  | returned result => cases h

theorem FileJob.moves_of_run (hnamed : job.Named T) (hreads : job.Reads T d)
    (howns : job.Owns d) (h : job.run d n = some (d', job')) :
    job.Moves T d d' job' := by
  cases job with
  | replacing r stage => exact moves_replacing hnamed howns h
  | reading name stage => exact moves_reading hnamed hreads h

end Moves

/-! ## Plans -/

section Plans

variable {ν β : Type*} [DecidableEq ν] [Inhabited β] {d d' : Disk ν β}
  {job job' : FileJob ν β} {n : ℕ} {s t : Files ν β}

theorem FileJob.plan_of_run (h : job.run d n = some (d', job')) :
    job'.plan = job.plan := by
  cases job with
  | replacing r stage =>
      cases stage <;> grind [FileJob.run, FileJob.plan, Option.map_eq_some_iff]
  | reading name stage =>
      cases stage <;> grind [FileJob.run, FileJob.plan, Option.map_eq_some_iff]

omit [DecidableEq ν] [Inhabited β] in
theorem FileJob.plan_of_fail (h : job.fail = some job') :
    job'.plan = job.plan := by
  cases job with
  | replacing r stage =>
      cases stage <;> grind [FileJob.fail, FileJob.giveUp, FileJob.plan]
  | reading name stage =>
      cases stage <;> grind [FileJob.fail, FileJob.plan]

/-- The plan of the job that a call starts. -/
def Files.Label.plan : Files.Label ν β → Option (FileReplacement ν β ⊕ ν)
  | replace r => some (.inl r)
  | read name => some (.inr name)
  | _ => none

/-- Jobs are added, and none changes its plan. -/
theorem Files.plans_next {l : Files.Label ν β} (h : next s l = some t) :
    t.jobs.map FileJob.plan = s.jobs.map FileJob.plan ++ l.plan.toList := by
  have hset : ∀ {j : ℕ} {a b : FileJob ν β}, s.jobs[j]? = some a →
      b.plan = a.plan →
        (s.jobs.set j b).map FileJob.plan = s.jobs.map FileJob.plan := by
    intro j a b ha hplan
    obtain ⟨hlt, rfl⟩ := List.getElem?_eq_some_iff.1 ha
    rw [List.map_set, hplan, ← List.map_set, List.set_getElem_self]
  cases l with
  | replace r =>
      obtain rfl := Option.some.inj h
      exact List.map_append
  | read name =>
      obtain rfl := Option.some.inj h
      exact List.map_append
  | run j n =>
      simp only [next] at h
      split at h
      case isTrue => cases h
      case isFalse =>
        obtain ⟨job, hj, hp⟩ := Option.bind_eq_some_iff.1 h
        obtain ⟨⟨d', job'⟩, hrun, rfl⟩ := Option.map_eq_some_iff.1 hp
        exact (hset hj (FileJob.plan_of_run hrun)).trans
          (List.append_nil _).symm
  | fail j =>
      simp only [next] at h
      split at h
      case isTrue => cases h
      case isFalse =>
        obtain ⟨job, hj, hp⟩ := Option.bind_eq_some_iff.1 h
        obtain ⟨job', hfail, rfl⟩ := Option.map_eq_some_iff.1 hp
        exact (hset hj (FileJob.plan_of_fail hfail)).trans
          (List.append_nil _).symm
  | stop j =>
      obtain rfl := Option.some.inj h
      exact (List.append_nil _).symm

end Plans

end Tempr.Support
