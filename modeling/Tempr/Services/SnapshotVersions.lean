import Tempr.Services.SchemaAgreement
import Tempr.Services.SchemaSteps

/-!
# Versions of the snapshot in memory

Three kinds of calls write the snapshot of a connection. A refresh counts from
the snapshot that it has read some steps before, and `load_cached` inserts what
it finds on disk, which lags behind memory when a write has failed, has been
skipped or is not done yet.

A ledger beside the state counts what has been inserted. The version in memory
never goes back as long as no copy is inserted after a later refresh, and a
refresh is passed by at most one other one between reading the snapshot that it
counts from and inserting its own.
-/

namespace Tempr.Services.SchemaCalls

open Tempr.Support SchemaService

variable {Id : Type} [DecidableEq Id]

/-- The version of the snapshot in memory. -/
def State.version (s : State Id) (connection : ConnectionId) : Option Nat :=
  (s.snapshots connection).map SchemaSnapshot.version

/-- The version is kept or grows. -/
def KeepsVersion (s t : State Id) (connection : ConnectionId) : Prop :=
  ∀ v, s.version connection = some v →
    ∃ v', t.version connection = some v' ∧ v ≤ v'

/-! ## The ledger -/

/-- What has been inserted, for each connection, and what had been when a call
read the snapshot that it counts from. -/
structure Ledger (Id : Type) where
  /-- how many snapshots refreshes have inserted -/
  inserted : ConnectionId → Nat
  /-- how many copies have been inserted in an empty memory -/
  filled : ConnectionId → Nat
  /-- the snapshot that a refresh has inserted last -/
  latest : ConnectionId → Option (SchemaSnapshot Id)
  /-- both counts at the reading of a call -/
  read : Nat → Nat × Nat

namespace Ledger

def empty : Ledger Id where
  inserted _ := 0
  filled _ := 0
  latest _ := none
  read _ := (0, 0)

/-- Call `i` has read the snapshot that it counts from. -/
def reads (k : Ledger Id) (i : Nat) (connection : ConnectionId) : Ledger Id :=
  { k with
    read := Function.update k.read i
      (k.inserted connection, k.filled connection) }

def fills (k : Ledger Id) (connection : ConnectionId) : Ledger Id :=
  { k with
    filled := Function.update k.filled connection (k.filled connection + 1) }

/-- A refresh has inserted a snapshot. -/
def inserts (k : Ledger Id) (connection : ConnectionId)
    (snapshot : SchemaSnapshot Id) : Ledger Id :=
  { k with
    inserted :=
      Function.update k.inserted connection (k.inserted connection + 1)
    latest := Function.update k.latest connection (some snapshot) }

/-- The ledger after the next step of call `i`. -/
def noteCall (k : Ledger Id) (s : State Id) (i : Nat) (call : Call Id) :
    Ledger Id :=
  match call.phase with
  | .looking => k.reads i call.connection
  | .numbering _ _ _ => k.reads i call.connection
  | .inserting _ _ =>
      (if (s.snapshots call.connection).isNone then k.fills call.connection
        else k).reads i call.connection
  | .installing _ snapshot _ _ => k.inserts call.connection snapshot
  | _ => k

def note (k : Ledger Id) (s : State Id) : Action → Ledger Id
  | .start _ _ _ => k
  | .advance i => (s.calls i).elim k (k.noteCall s i)

end Ledger

/-- No insertion comes too late. A copy from disk is inserted only if no refresh
has inserted a later snapshot, one whose write was skipped, has failed or is not
done. And from its reading of the snapshot that it counts from to its insertion,
a refresh is passed by at most one other insertion of a refresh, and by no copy
that is loaded into an empty memory. -/
def timely (p : State Id × Ledger Id) : Action → Bool
  | .start _ _ _ => true
  | .advance i =>
      (p.1.calls i).all fun call =>
        match call.phase with
        | .inserting copy _ =>
            (p.2.latest call.connection).all fun latest => decide (latest = copy)
        | .installing _ _ _ _ =>
            decide (p.2.inserted call.connection ≤ (p.2.read i).1 + 1 ∧
              p.2.filled call.connection = (p.2.read i).2)
        | _ => true

/-- The calls with a ledger, as long as no insertion comes too late. -/
def timelySystem (worlds : ConnectionId → World Id) :
    System (State Id × Ledger Id) Action :=
  ((system worlds).watch Ledger.empty Ledger.note).restrict
    fun p a => timely p a = true

/-! ## What the ledger tells of the versions -/

/-- The version of a snapshot, or 0 if there is none. -/
def versionOf (snapshot : Option (SchemaSnapshot Id)) : Nat :=
  (snapshot.map SchemaSnapshot.version).getD 0

/-- What memory holds is as new as the snapshot that call `i` counts from, and as
many versions newer at most as refreshes have inserted since it was read, unless
a copy has been loaded into an empty memory. -/
structure Counts (held base : Option (SchemaSnapshot Id))
    (inserted filled : Nat) (read : Nat × Nat) : Prop where
  base_le : versionOf base ≤ versionOf held
  read_inserted : read.1 ≤ inserted
  read_filled : read.2 ≤ filled
  held_le : filled = read.2 →
    versionOf held ≤ versionOf base + (inserted - read.1)

omit [DecidableEq Id] in
theorem Counts.refl (base : Option (SchemaSnapshot Id)) (inserted filled : Nat) :
    Counts base base inserted filled (inserted, filled) where
  base_le := Nat.le_refl _
  read_inserted := Nat.le_refl _
  read_filled := Nat.le_refl _
  held_le _ := by simp

omit [DecidableEq Id] in
theorem versionOf_nextVersion (base : Option (SchemaSnapshot Id)) :
    nextVersion base = versionOf base + 1 := by
  cases base <;> rfl

/-! ## One connection -/

/-- What the ledger, memory and the disk have of one connection. -/
structure Book (Id : Type) where
  latest : Option (SchemaSnapshot Id)
  held : Option (SchemaSnapshot Id)
  cached : Option (SchemaSnapshot Id)
  inserted : Nat
  filled : Nat

def book (p : State Id × Ledger Id) (connection : ConnectionId) : Book Id where
  latest := p.2.latest connection
  held := p.1.snapshots connection
  cached := p.1.caches connection
  inserted := p.2.inserted connection
  filled := p.2.filled connection

namespace Book

/-- How a timely step changes the book of its connection. -/
inductive Change (b : Book Id) : Book Id → Prop
  | keep : Change b b
  /-- a call that has inserted writes to disk -/
  | write (cached : Option (SchemaSnapshot Id)) :
      b.latest.isSome = true → Change b { b with cached }
  /-- a refresh inserts -/
  | insert (snapshot : SchemaSnapshot Id) :
      versionOf b.held ≤ snapshot.version →
      snapshot.version ≤ versionOf b.held + 1 →
      Change b
        { b with
          latest := some snapshot, held := some snapshot
          inserted := b.inserted + 1 }
  /-- a copy is loaded into an empty memory -/
  | fill (copy : SchemaSnapshot Id) :
      b.latest = none → b.held = none → b.cached = some copy →
      Change b { b with held := some copy, filled := b.filled + 1 }

/-- Memory holds the latest snapshot of a refresh, or else the copy on disk. -/
structure Sound (b : Book Id) : Prop where
  latest : ∀ snapshot, b.latest = some snapshot → b.held = some snapshot
  loaded : ∀ snapshot, b.latest = none → b.held = some snapshot →
    b.cached = some snapshot

/-- A call keeps in step with the book: a copy that it will insert is the one on
disk unless a refresh has inserted, and it has kept count of the snapshot that it
counts from. -/
structure InStep (b : Book Id) (phase : Phase Id) (read : Nat × Nat) :
    Prop where
  numbered : phase.Numbered
  copied : ∀ copy incremental, phase = .inserting copy incremental →
    b.latest = none → b.cached = some copy
  inserted : phase.hasInserted = true → b.latest.isSome = true
  counts : ∀ base, phase.base = some base →
    Counts b.held base b.inserted b.filled read

variable {b b' : Book Id}

omit [DecidableEq Id] in
theorem Change.sound (h : Change b b') (hb : b.Sound) : b'.Sound := by
  cases h with
  | keep => exact hb
  | write cached hlatest =>
      refine ⟨hb.latest, fun snapshot hnone => ?_⟩
      rw [hnone] at hlatest
      cases hlatest
  | insert snapshot =>
      exact ⟨fun _ h => h, fun _ hnone => by cases hnone⟩
  | fill copy hlatest hheld hcached =>
      refine ⟨fun snapshot hsome => ?_, fun snapshot _ hsome => ?_⟩
      · rw [show b.latest = some snapshot from hsome] at hlatest
        cases hlatest
      · rw [← Option.some.inj hsome]
        exact hcached

omit [DecidableEq Id] in
theorem Change.latest_isSome (h : Change b b') (hb : b.latest.isSome = true) :
    b'.latest.isSome = true := by
  cases h with
  | keep => exact hb
  | write => exact hb
  | insert => rfl
  | fill => exact hb

omit [DecidableEq Id] in
theorem Change.counts (h : Change b b') {base : Option (SchemaSnapshot Id)}
    {read : Nat × Nat} (hb : Counts b.held base b.inserted b.filled read) :
    Counts b'.held base b'.inserted b'.filled read := by
  cases h with
  | keep => exact hb
  | write => exact hb
  | insert snapshot hle hnext =>
      refine ⟨hb.base_le.trans hle, hb.read_inserted.trans (Nat.le_succ _),
        hb.read_filled, fun hfilled => ?_⟩
      have hheld := hb.held_le hfilled
      have hread := hb.read_inserted
      change snapshot.version ≤ versionOf base + (b.inserted + 1 - read.1)
      omega
  | fill copy _ hheld =>
      have hbase := hb.base_le
      rw [hheld] at hbase
      refine ⟨hbase.trans (Nat.zero_le _), hb.read_inserted,
        hb.read_filled.trans (Nat.le_succ _), fun hfilled => ?_⟩
      have hread := hb.read_filled
      change b.filled + 1 = read.2 at hfilled
      omega

omit [DecidableEq Id] in
theorem Change.inStep (h : Change b b') {phase : Phase Id} {read : Nat × Nat}
    (hb : b.InStep phase read) : b'.InStep phase read where
  numbered := hb.numbered
  copied copy incremental hphase hnone := by
    have hcached := hb.copied copy incremental hphase
    cases h with
    | keep => exact hcached hnone
    | write cached hlatest =>
        rw [show b.latest = none from hnone] at hlatest
        cases hlatest
    | insert => cases hnone
    | fill => exact hcached hnone
  inserted hphase := h.latest_isSome (hb.inserted hphase)
  counts base hbase := h.counts (hb.counts base hbase)

omit [DecidableEq Id] in
theorem inStep_firstPhase (b : Book Id) (request : Request) (read : Nat × Nat) :
    b.InStep (firstPhase request) read := by
  cases request <;>
    exact ⟨trivial, (fun _ _ h => by cases h), (fun h => by cases h),
      (fun _ h => by cases h)⟩

omit [DecidableEq Id] in
/-- While memory is empty, no refresh has inserted. -/
theorem Sound.latest_eq_none (hb : b.Sound) (hheld : b.held = none) :
    b.latest = none := by
  cases hlatest : b.latest with
  | none => rfl
  | some latest =>
      rw [hb.latest latest hlatest] at hheld
      cases hheld

omit [DecidableEq Id] in
/-- A copy that is about to be inserted is what memory holds already. -/
theorem InStep.held_eq_copy {copy held : SchemaSnapshot Id} {incremental : Bool}
    {read : Nat × Nat} (h : b.InStep (.inserting copy incremental) read)
    (hb : b.Sound) (hlatest : ∀ latest, b.latest = some latest → latest = copy)
    (hheld : b.held = some held) : held = copy := by
  cases hinserted : b.latest with
  | none =>
      have hdisk := hb.loaded held hinserted hheld
      have hread := h.copied copy incremental rfl hinserted
      exact Option.some.inj (hdisk.symm.trans hread)
  | some latest =>
      rw [← hlatest latest hinserted]
      exact Option.some.inj (hheld.symm.trans (hb.latest latest hinserted))

omit [DecidableEq Id] in
/-- A refresh inserts the version after the one that memory holds, or that one
again, if at most one other insertion came between. -/
theorem InStep.change_installing {base : Option (SchemaSnapshot Id)}
    {snapshot : SchemaSnapshot Id} {scope : Option SchemaScope}
    {path : Option RefreshPath} {read : Nat × Nat}
    (h : b.InStep (.installing base snapshot scope path) read)
    (hinserted : b.inserted ≤ read.1 + 1) (hfilled : b.filled = read.2) :
    b.Change { b with
      latest := some snapshot, held := some snapshot
      inserted := b.inserted + 1 } := by
  have hversion : snapshot.version = versionOf base + 1 :=
    h.numbered.trans (versionOf_nextVersion base)
  have hcounts := h.counts base rfl
  have hle := hcounts.held_le hfilled
  have hbase := hcounts.base_le
  have hkeeps : versionOf b.held ≤ snapshot.version := by omega
  have hnext : snapshot.version ≤ versionOf b.held + 1 := by omega
  exact .insert snapshot hkeeps hnext

omit [DecidableEq Id] in
/-- The version is kept or grows. -/
theorem Change.version_le (h : Change b b') {held : SchemaSnapshot Id}
    (hheld : b.held = some held) :
    ∃ held', b'.held = some held' ∧ held.version ≤ held'.version := by
  cases h with
  | keep => exact ⟨held, hheld, Nat.le_refl _⟩
  | write => exact ⟨held, hheld, Nat.le_refl _⟩
  | insert snapshot hle =>
      rw [hheld] at hle
      exact ⟨snapshot, rfl, hle⟩
  | fill copy _ hnone =>
      rw [hheld] at hnone
      cases hnone

end Book

/-! ## Runs -/

/-- All calls are in step with the books, which are sound. -/
structure InStep (p : State Id × Ledger Id) : Prop where
  sound : ∀ connection, (book p connection).Sound
  calls : ∀ i call, p.1.calls i = some call →
    (book p call.connection).InStep call.phase (p.2.read i)

section Runs

variable {worlds : ConnectionId → World Id} {p q : State Id × Ledger Id}
  {i : Nat} {call : Call Id}

omit [DecidableEq Id] in
theorem inStep_of_fresh {s : State Id} (h : Fresh s) : InStep (s, .empty) where
  sound connection :=
    ⟨fun _ hlatest => absurd hlatest (by simp [book, Ledger.empty]),
      fun snapshot _ hheld =>
        absurd ((h.snapshots connection).symm.trans hheld) (by simp)⟩
  calls i call hcall := by
    rw [show s.calls i = none from h.calls i] at hcall
    cases hcall

omit [DecidableEq Id] in
/-- The book of a call's connection after its step, and those of the others. -/
theorem book_noteCall {t : State Id} {phase : Phase Id}
    (heffect : Effect p.1 t call phase) {connection : ConnectionId}
    (hne : connection ≠ call.connection) :
    book (t, p.2.noteCall p.1 i call) connection = book p connection := by
  have hsnapshots : t.snapshots connection = p.1.snapshots connection := by
    rw [heffect.snapshots]
    cases hinsertion : call.phase.insertion with
    | none => rfl
    | some snapshot => exact Function.update_of_ne hne ..
  have hcaches : t.caches connection = p.1.caches connection := by
    rcases heffect.caches with hcaches | ⟨-, hcaches⟩
    · rw [hcaches]
    · exact hcaches connection hne
  have hledger : (p.2.noteCall p.1 i call).latest connection =
        p.2.latest connection ∧
      (p.2.noteCall p.1 i call).inserted connection =
        p.2.inserted connection ∧
      (p.2.noteCall p.1 i call).filled connection = p.2.filled connection := by
    rw [Ledger.noteCall]
    split
    · exact ⟨rfl, rfl, rfl⟩
    · exact ⟨rfl, rfl, rfl⟩
    · split
      · exact ⟨rfl, rfl, Function.update_of_ne hne ..⟩
      · exact ⟨rfl, rfl, rfl⟩
    · exact ⟨Function.update_of_ne hne .., Function.update_of_ne hne .., rfl⟩
    · exact ⟨rfl, rfl, rfl⟩
  simp only [book, hsnapshots, hcaches, hledger]

omit [DecidableEq Id] in
/-- Only the call that steps reads, and it has both counts then. -/
theorem read_noteCall (k : Ledger Id) (s : State Id) (i j : Nat)
    (call : Call Id) :
    (k.noteCall s i call).read j =
      if j = i ∧ call.phase.readsBase = true then
        ((k.noteCall s i call).inserted call.connection,
          (k.noteCall s i call).filled call.connection)
      else k.read j := by
  have hreads : ∀ k : Ledger Id, (k.reads i call.connection).read j =
      if j = i then
        ((k.reads i call.connection).inserted call.connection,
          (k.reads i call.connection).filled call.connection)
      else k.read j := by
    intro k
    exact Function.update_apply ..
  rw [Ledger.noteCall]
  cases hphase : call.phase with
  | looking => simpa [Phase.readsBase] using hreads k
  | numbering => simpa [Phase.readsBase] using hreads k
  | inserting copy incremental =>
      simp only [Phase.readsBase, and_true]
      split
      · exact hreads _
      · exact hreads _
  | _ => simp [Phase.readsBase, Ledger.inserts]

/-- A timely step changes the book of its connection as a book may change. -/
theorem change_noteCall {t : State Id} {phase : Phase Id}
    (h : (book p call.connection).InStep call.phase (p.2.read i))
    (hsound : (book p call.connection).Sound)
    (hcall : p.1.calls i = some call) (htimely : timely p (.advance i) = true)
    (heffect : Effect p.1 t call phase) :
    (book p call.connection).Change
      (book (t, p.2.noteCall p.1 i call) call.connection) := by
  have hsnapshots := congrFun heffect.snapshots call.connection
  have hcaches : call.phase.hasInserted = false →
      t.caches call.connection = p.1.caches call.connection := by
    intro hnone
    rcases heffect.caches with hcaches | ⟨hinserted, -⟩
    · rw [hcaches]
    · rw [hnone] at hinserted
      cases hinserted
  simp only [timely, hcall, Option.all_some] at htimely
  obtain ⟨connection, current⟩ := call
  cases current with
  | inserting copy incremental =>
      have hcached := hcaches rfl
      have hheld : t.snapshots connection = some copy :=
        hsnapshots.trans (Function.update_self ..)
      cases hmemory : p.1.snapshots connection with
      | none =>
          have hnone := hsound.latest_eq_none hmemory
          have hbook : book (t, p.2.noteCall p.1 i
              ⟨connection, .inserting copy incremental⟩) connection =
              { book p connection with
                held := some copy
                filled := (book p connection).filled + 1 } := by
            simp only [book, hheld, hcached, Ledger.noteCall, hmemory,
              Option.isNone_none, if_true, Ledger.reads, Ledger.fills,
              Function.update_self]
          rw [hbook]
          exact .fill copy hnone hmemory (h.copied copy incremental rfl hnone)
      | some held =>
          -- memory holds the very copy
          have hcopy : held = copy := by
            refine h.held_eq_copy hsound (fun latest hlatest => ?_) hmemory
            rw [show p.2.latest connection = some latest from hlatest] at htimely
            simpa using htimely
          have hbook : book (t, p.2.noteCall p.1 i
              ⟨connection, .inserting copy incremental⟩) connection =
              book p connection := by
            simp only [book, hheld, hcached, Ledger.noteCall, hmemory, hcopy,
              Option.isNone_some, Bool.false_eq_true, if_false, Ledger.reads]
          rw [hbook]
          exact .keep
  | installing base snapshot scope path =>
      have hcached := hcaches rfl
      have hheld : t.snapshots connection = some snapshot :=
        hsnapshots.trans (Function.update_self ..)
      have hbound : p.2.inserted connection ≤ (p.2.read i).1 + 1 ∧
          p.2.filled connection = (p.2.read i).2 := by simpa using htimely
      have hbook : book (t, p.2.noteCall p.1 i
          ⟨connection, .installing base snapshot scope path⟩) connection =
          { book p connection with
            latest := some snapshot, held := some snapshot
            inserted := (book p connection).inserted + 1 } := by
        simp only [book, hheld, hcached, Ledger.noteCall, Ledger.inserts,
          Function.update_self]
      rw [hbook]
      exact h.change_installing hbound.1 hbound.2
  | remembering scope snapshot path =>
      refine cast ?_ (Book.Change.write (t.caches connection) (h.inserted rfl))
      simp only [book, hsnapshots]
      rfl
  | comparing snapshot path =>
      refine cast ?_ (Book.Change.write (t.caches connection) (h.inserted rfl))
      simp only [book, hsnapshots]
      rfl
  | saving snapshot path =>
      refine cast ?_ (Book.Change.write (t.caches connection) (h.inserted rfl))
      simp only [book, hsnapshots]
      rfl
  | publishing snapshot path =>
      refine cast ?_ (Book.Change.write (t.caches connection) (h.inserted rfl))
      simp only [book, hsnapshots]
      rfl
  | _ =>
      have hcached := hcaches rfl
      refine cast ?_ (Book.Change.keep (b := book p connection))
      simp only [book, hsnapshots, hcached]
      rfl

omit [DecidableEq Id] in
/-- A call is in step with the book after its own step. -/
theorem Book.InStep.advance {t : State Id} {phase : Phase Id}
    (h : (book p call.connection).InStep call.phase (p.2.read i))
    (hown : (book p call.connection).Change
      (book (t, p.2.noteCall p.1 i call) call.connection))
    (heffect : Effect p.1 t call phase) :
    (book (t, p.2.noteCall p.1 i call) call.connection).InStep phase
      ((p.2.noteCall p.1 i call).read i) := by
  rw [read_noteCall]
  refine ⟨heffect.numbered, fun copy incremental hphase _ =>
    heffect.copied copy incremental hphase, fun hinserted => ?_,
    fun base hbase => ?_⟩
  · rcases heffect.inserted hinserted with hinserted |
      ⟨base, snapshot, scope, path, hinstalling⟩
    · exact hown.latest_isSome (h.inserted hinserted)
    · simp [book, Ledger.noteCall, hinstalling, Ledger.inserts]
  · rcases heffect.based base hbase with hkept | ⟨hreads, hread⟩
    · have hnot : call.phase.readsBase = false := by
        cases hphase : call.phase <;> rw [hphase] at hkept <;>
          first | rfl | cases hkept
      rw [if_neg (by simp [hnot])]
      exact hown.counts (h.counts base hkept)
    · rw [if_pos ⟨rfl, hreads⟩]
      subst hread
      exact .refl _ _ _

omit [DecidableEq Id] in
/-- A call that starts is in step, and leaves all books as they are. -/
theorem InStep.start {t : State Id} {connection : ConnectionId}
    {request : Request} (hp : InStep p)
    (hcalls : t.calls =
      Function.update p.1.calls i (some ⟨connection, firstPhase request⟩))
    (hbook : ∀ c, book (t, p.2) c = book p c) : InStep (t, p.2) := by
  refine ⟨fun c => hbook c ▸ hp.sound c, fun j call hcall => ?_⟩
  rw [hbook]
  simp only [hcalls] at hcall
  by_cases hj : j = i
  · subst hj
    rw [Function.update_self] at hcall
    obtain rfl := Option.some.inj hcall
    exact Book.inStep_firstPhase _ request _
  · rw [Function.update_of_ne hj] at hcall
    exact hp.calls j call hcall

/-- The effect of a step of the calls on the books. -/
theorem step_cases {a : Action} (h : (timelySystem worlds).step p a q)
    (hp : InStep p) :
    InStep q ∧ ∀ connection,
      (book p connection).Change (book q connection) := by
  obtain ⟨⟨hnext, hnote⟩, htimely⟩ := h
  obtain ⟨t, k⟩ := q
  change next worlds p.1 a = some t at hnext
  change k = p.2.note p.1 a at hnote
  subst hnote
  rcases next_cases hnext with
    ⟨i, connection, request, rfl, -, hcalls, hsnapshots, hcaches⟩ |
    ⟨i, call, phase, rfl, hcall, hcalls, heffect⟩
  · have hbook : ∀ c, book (t, p.2) c = book p c := by
      intro c
      simp only [book, hsnapshots, hcaches]
    exact ⟨hp.start hcalls hbook, fun c => hbook c ▸ .keep⟩
  · have hnoted : p.2.note p.1 (.advance i) = p.2.noteCall p.1 i call := by
      rw [Ledger.note, hcall]
      rfl
    rw [hnoted]
    have hown := change_noteCall (hp.calls i call hcall)
      (hp.sound call.connection) hcall htimely heffect
    have hchange : ∀ c, (book p c).Change
        (book (t, p.2.noteCall p.1 i call) c) := by
      intro c
      by_cases hc : c = call.connection
      · subst hc
        exact hown
      · rw [book_noteCall heffect hc]
        exact .keep
    refine ⟨⟨fun c => (hchange c).sound (hp.sound c), fun j other hother => ?_⟩,
      hchange⟩
    simp only [hcalls] at hother
    by_cases hj : j = i
    · subst hj
      rw [Function.update_self] at hother
      obtain rfl := Option.some.inj hother
      exact (hp.calls j call hcall).advance hown heffect
    · rw [Function.update_of_ne hj] at hother
      change (book _ other.connection).InStep other.phase
        ((p.2.noteCall p.1 i call).read j)
      rw [read_noteCall, if_neg fun h => hj h.1]
      exact (hchange other.connection).inStep (hp.calls j other hother)

theorem inStep_of_reachable (h : (timelySystem worlds).Reachable p) :
    InStep p := by
  refine h.invariant (I := InStep) ?_ fun _ _ _ hstep hp =>
    (step_cases hstep hp).1
  rintro ⟨s, k⟩ ⟨hfresh, rfl⟩
  exact inStep_of_fresh hfresh

omit [DecidableEq Id] in
theorem KeepsVersion.refl (s : State Id) (connection : ConnectionId) :
    KeepsVersion s s connection :=
  fun v hv => ⟨v, hv, Nat.le_refl v⟩

omit [DecidableEq Id] in
theorem KeepsVersion.trans {s t u : State Id} {connection : ConnectionId}
    (h : KeepsVersion s t connection) (h' : KeepsVersion t u connection) :
    KeepsVersion s u connection := by
  intro v hv
  obtain ⟨v', hv', hle⟩ := h v hv
  obtain ⟨v'', hv'', hle'⟩ := h' v' hv'
  exact ⟨v'', hv'', hle.trans hle'⟩

omit [DecidableEq Id] in
theorem KeepsVersion.of_change {connection : ConnectionId}
    (h : (book p connection).Change (book q connection)) :
    KeepsVersion p.1 q.1 connection := by
  intro v hv
  obtain ⟨held, hheld, rfl⟩ := Option.map_eq_some_iff.1 hv
  obtain ⟨held', hheld', hle⟩ := h.version_le hheld
  exact ⟨held'.version, Option.map_eq_some_iff.2 ⟨held', hheld', rfl⟩, hle⟩

/-- As long as no insertion comes too late, the version in memory never goes
back, whatever happens in between. -/
theorem version_never_decreases {ls : List Action}
    (hp : (timelySystem worlds).Reachable p)
    (h : (timelySystem worlds).Run p ls q) (connection : ConnectionId) :
    KeepsVersion p.1 q.1 connection := by
  induction h with
  | nil => exact .refl _ connection
  | snoc hrun hlast ih =>
      have hinStep := inStep_of_reachable (hp.append hrun)
      exact ih.trans (.of_change ((step_cases hlast hinStep).2 connection))

end Runs

/-- A server at rest, and a disk. -/
def storedServer (_ : ConnectionId) : World ObjectId :=
  { changingServer 0 threeFunctions threeFunctions with storage := true }

/-- `count` steps of call `i`. -/
def steps (i count : Nat) : List Action :=
  List.replicate count (.advance i)

/-- A full refresh, from its start to its publication. -/
def firstRefresh : List Action :=
  .start 0 ⟨"c"⟩ (.refreshScope .all) :: steps 0 7

/-- A second one, whose write is skipped because nothing has changed. -/
def secondRefresh : List Action :=
  .start 1 ⟨"c"⟩ (.refreshScope .all) :: steps 1 6

/-- `load_cached`. -/
def load (i : Nat) : List Action :=
  .start i ⟨"c"⟩ .loadCached :: steps i 2

/-- After a refresh its copy is loaded, and then a second refresh is made. -/
theorem version_never_decreases_refreshed :
    ∃ s t : State ObjectId, s.version ⟨"c"⟩ = some 1 ∧
      t.version ⟨"c"⟩ = some 2 ∧ KeepsVersion s t ⟨"c"⟩ := by
  let follow := System.follow
    (System.guarded (System.watchNext (next storedServer) Ledger.note) timely)
  let before := follow (State.new, .empty) firstRefresh
  have hsome : before.isSome = true := by decide
  obtain ⟨p, hp⟩ := Option.isSome_iff_exists.1 hsome
  have hbefore : (before.bind fun p => p.1.version ⟨"c"⟩) = some 1 := by decide
  have hafter : (before.bind fun p => follow p (load 2 ++ secondRefresh)).map
      (fun q => q.1.version ⟨"c"⟩) = some (some 2) := by decide
  rw [hp] at hbefore hafter
  obtain ⟨q, hq, hversion⟩ := Option.map_eq_some_iff.1 hafter
  have hfirst : (timelySystem storedServer).Run (State.new, .empty) firstRefresh
      p := System.run_of_follow System.restrict_step_of_guarded_watch hp
  have hsecond : (timelySystem storedServer).Run p (load 2 ++ secondRefresh) q :=
    System.run_of_follow System.restrict_step_of_guarded_watch hq
  have hinit : (timelySystem storedServer).init (State.new, .empty) :=
    ⟨fresh_new, rfl⟩
  have hreach : (timelySystem storedServer).Reachable p := ⟨_, _, hinit, hfirst⟩
  exact ⟨p.1, q.1, hbefore, hversion,
    version_never_decreases hreach hsecond ⟨"c"⟩⟩

/-- A copy whose newer version has not been written, because its content is the
same, is loaded over that newer version. -/
theorem load_cached_goes_back :
    ¬ ∀ (worlds : ConnectionId → World ObjectId) (s t : State ObjectId)
      (ls : List Action) (connection : ConnectionId),
      (system worlds).Reachable s → (system worlds).Run s ls t →
        KeepsVersion s t connection := by
  intro hclaim
  let before := System.follow (next storedServer) State.new
    (firstRefresh ++ secondRefresh)
  have hsome : before.isSome = true := by decide
  obtain ⟨s, hs⟩ := Option.isSome_iff_exists.1 hsome
  have hbefore : (before.bind fun s => s.version ⟨"c"⟩) = some 2 := by decide
  have hafter : (before.bind fun s =>
      System.follow (next storedServer) s (load 2)).map
        (fun t => t.version ⟨"c"⟩) = some (some 1) := by decide
  rw [hs] at hbefore hafter
  obtain ⟨t, ht, hversion⟩ := Option.map_eq_some_iff.1 hafter
  have hrun : (system storedServer).Run State.new
      (firstRefresh ++ secondRefresh) s :=
    System.run_of_follow (fun _ _ _ h => h) hs
  have hload : (system storedServer).Run s (load 2) t :=
    System.run_of_follow (fun _ _ _ h => h) ht
  obtain ⟨v, hv, hle⟩ := hclaim storedServer s t (load 2) ⟨"c"⟩
    ⟨_, _, fresh_new, hrun⟩ hload 2 hbefore
  rw [hversion] at hv
  obtain rfl := Option.some.inj hv
  exact absurd hle (by decide)

end Tempr.Services.SchemaCalls
