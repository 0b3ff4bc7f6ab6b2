import Tempr.Services.PoolOwnership

/-!
# Pools that are closed

State and pools of an entry are written together, and every `transition` writes
pools with `Connected` alone. The pools that it displaces are closed by the same
call, before it publishes.
-/

namespace Tempr.Services.ConnectionService

open Tempr.Support

/-! ## Pools and states -/

/-- Pools go with `Connected`, and with no other state. -/
def PoolsFit (state : ConnectionState) (pools : Option PoolSet) : Prop :=
  pools.isSome = true ↔ state = .connected

/-- Entries hold pools that fit their states, and calls write no others. -/
structure EntriesFit (s : State) : Prop where
  entries : ∀ {id entry}, s.entries id = some entry →
    PoolsFit entry.state entry.pools
  locking : ∀ {i call state pools after}, s.calls i = some call →
    call.phase = .locking state pools after → PoolsFit state pools

/-- The lock sections to come after a step of a call that takes none. -/
theorem EntriesFit.goto {s u : State} (h : EntriesFit s)
    (hentries : u.entries = s.entries) (hcalls : u.calls = s.calls) {i : Nat}
    {call : Call} {phase : Phase}
    (hphase : ∀ {state pools after}, phase = .locking state pools after →
      PoolsFit state pools) : EntriesFit (u.goto i call phase) := by
  constructor
  · intro id entry hentry
    rw [goto_entries, hentries] at hentry
    exact h.entries hentry
  · intro k other state pools after hother hlocking
    by_cases hki : k = i
    · subst hki
      rw [goto_calls_self] at hother
      obtain rfl := Option.some.inj hother
      exact hphase hlocking
    · rw [goto_calls_of_ne u call phase hki, hcalls] at hother
      exact h.locking hother hlocking

theorem EntriesFit.lockSection {s : State} (h : EntriesFit s) {i : Nat}
    {call : Call} (hcall : s.calls i = some call) {state : ConnectionState}
    {pools : Option PoolSet} {after : After}
    (hphase : call.phase = .locking state pools after) :
    EntriesFit (lockSection s i call state pools after) := by
  have hwritten : EntriesFit (s.write call.request.id { state, pools }) := by
    constructor
    · intro id entry hentry
      by_cases hid : id = call.request.id
      · subst hid
        simp only [State.write, Function.update_self] at hentry
        obtain rfl := Option.some.inj hentry
        exact h.locking hcall hphase
      · simp only [State.write, Function.update_of_ne hid] at hentry
        exact h.entries hentry
    · exact h.locking
  refine hwritten.goto rfl rfl ?_
  intro state' pools' after' hlocking
  split at hlocking <;> cases hlocking

/-- Every step keeps pools and states together. -/
theorem EntriesFit.next {s t : State} {a : Action} (h : EntriesFit s)
    (hstep : next s a = some t) : EntriesFit t := by
  have hnone : ∀ {state : ConnectionState}, state ≠ .connected →
      PoolsFit state none := fun hstate => by simp [PoolsFit, hstate]
  rcases next_cases hstep with
    ⟨i, request, -, -, rfl⟩ | ⟨engine, -, rfl⟩ | ⟨i, call, hcall, -, hmove⟩
  · refine h.goto rfl rfl ?_
    intro state pools after hlocking
    cases request <;> cases hlocking <;> exact hnone (by decide)
  · exact ⟨h.entries, h.locking⟩
  · cases hmove with
    | locked hphase => exact h.lockSection hcall hphase
    | @closed displaced state after hphase =>
        exact h.goto (u := s.close displaced) rfl rfl (by simp)
    | @published state after hphase =>
        refine h.goto (u := s.publish _) rfl rfl ?_
        cases after <;> simp [resume]
    | found => exact h.goto rfl rfl (by simp)
    | missing =>
        refine h.goto rfl rfl ?_
        intro state pools after hlocking
        cases hlocking
        exact hnone (by decide)
    | passed =>
        refine h.goto rfl rfl ?_
        intro state pools after hlocking
        cases hlocking
        simp [PoolsFit]
    | beaten => exact h.goto rfl rfl (by simp)
    | @discarded pools hphase =>
        exact h.goto (u := s.close pools) rfl rfl (by simp)
    | stuck =>
        refine h.goto rfl rfl ?_
        intro state pools after hlocking
        cases hlocking
        exact hnone (by decide)
    | released => exact h.goto rfl rfl (by simp)
    | builtUser => exact h.goto rfl rfl (by simp)
    | builtMetadata => exact h.goto rfl rfl (by simp)
    | buildFailed => exact h.goto rfl rfl (by simp)
    | warmed => exact h.goto rfl rfl (by simp)
    | warmUpFailed =>
        refine h.goto rfl rfl ?_
        intro state pools after hlocking
        cases hlocking
        exact hnone (by decide)
    | aborted => exact h.goto rfl rfl (by simp)

theorem entriesFit_of_reachable {s : State} (h : system.Reachable s) :
    EntriesFit s := by
  refine h.invariant ?_ fun _ _ _ hstep hs => hs.next hstep
  rintro s ⟨hentries, hcalls, -⟩
  constructor <;> simp [hentries, hcalls]

/-! ## Pools that were installed -/

/-- Records the pools that lock sections install. -/
def noteInstalled (installed : List PoolSet) (s : State) :
    Action → List PoolSet
  | .advance i =>
      match s.calls i with
      | some ⟨_, .locking _ (some pools) _⟩ => pools :: installed
      | _ => installed
  | _ => installed

/-- The service, with the record of the installed pools. -/
def ledger : System (State × List PoolSet) Action :=
  system.watch [] noteInstalled

/-- Both pools of the set are closed. -/
def State.Closed (s : State) (pools : PoolSet) : Prop :=
  s.closed pools.user = true ∧ s.closed pools.metadata = true

/-- A call is about to close the pools. -/
def State.Closing (s : State) (pools : PoolSet) : Prop :=
  ∃ i call, s.calls i = some call ∧ call.phase.displaced = some pools

/-- No call is between its lock section and its close. -/
def State.AllClosed (s : State) : Prop :=
  ∀ i call, s.calls i = some call → call.phase.displaced = none

/-- What was installed is held, about to be closed, or closed. -/
def Accounted (s : State) (installed : List PoolSet) : Prop :=
  ∀ pools ∈ installed,
    (∃ id, s.pools id = some pools) ∨ s.Closing pools ∨ s.Closed pools

theorem State.Closed.close {s : State} {pools : PoolSet} (h : s.Closed pools)
    (own : PoolSet) : (s.close own).Closed pools := by
  have hstays : ∀ pool, s.closed pool = true →
      (s.close own).closed pool = true := by
    intro pool hpool
    by_cases hmetadata : pool = own.metadata
    · simp [State.close, PoolSet.close, hmetadata]
    · by_cases huser : pool = own.user
      · simp [State.close, PoolSet.close, huser, Function.update_apply]
      · simpa [State.close, PoolSet.close, hmetadata, huser] using hpool
  exact ⟨hstays _ h.1, hstays _ h.2⟩

theorem State.closed_close (s : State) (pools : PoolSet) :
    (s.close pools).Closed pools := by
  simp [State.Closed, State.close, PoolSet.close, Function.update_apply]

/-- A step of call `i` that leaves the entries alone, and after which the pools
that it was about to close are closed. -/
theorem Accounted.goto {s u : State} {installed : List PoolSet}
    (h : Accounted s installed) (hentries : u.entries = s.entries)
    (hcalls : u.calls = s.calls) {i : Nat} {call : Call}
    (hcall : s.calls i = some call) {phase : Phase}
    (hclosed : ∀ {pools}, s.Closed pools → u.Closed pools)
    (hdisplaced : ∀ {pools}, call.phase.displaced = some pools →
      u.Closed pools) : Accounted (u.goto i call phase) installed := by
  intro pools hpools
  rcases h pools hpools with ⟨id, hheld⟩ | ⟨k, other, hother, hclosing⟩ | hdone
  · left
    exact ⟨id, by rwa [State.pools, goto_entries, hentries]⟩
  · by_cases hki : k = i
    · subst hki
      obtain rfl : call = other := by simpa [hcall] using hother
      exact .inr (.inr (hdisplaced hclosing))
    · exact .inr (.inl ⟨k, other,
        by rw [goto_calls_of_ne u call phase hki, hcalls, hother], hclosing⟩)
  · exact .inr (.inr (hclosed hdone))

/-- The pools that a lock section displaces are about to be closed. -/
theorem Accounted.lockSection {s : State} {installed : List PoolSet}
    (h : Accounted s installed) {i : Nat} {call : Call}
    (hcall : s.calls i = some call) {state : ConnectionState}
    {pools : Option PoolSet} {after : After}
    (hphase : call.phase = .locking state pools after) :
    Accounted (lockSection s i call state pools after)
      (pools.toList ++ installed) := by
  intro set hset
  rcases List.mem_append.1 hset with hnew | hold
  · left
    refine ⟨call.request.id, ?_⟩
    rw [Option.mem_toList.1 hnew]
    simp [ConnectionService.lockSection, State.pools, State.write]
  · rcases h set hold with ⟨id, hheld⟩ | ⟨k, other, hother, hclosing⟩ | hdone
    · by_cases hid : id = call.request.id
      · subst hid
        refine .inr (.inl ⟨i, _, goto_calls_self _ _ _ _, ?_⟩)
        rw [hheld]
        rfl
      · exact .inl ⟨id, by simpa [ConnectionService.lockSection, State.pools,
          State.write, hid] using hheld⟩
    · have hki : k ≠ i := by
        rintro rfl
        obtain rfl : call = other := by simpa [hcall] using hother
        rw [hphase] at hclosing
        cases hclosing
      refine .inr (.inl ⟨k, other, ?_, hclosing⟩)
      rw [ConnectionService.lockSection, goto_calls_of_ne _ _ _ hki]
      exact hother
    · exact .inr (.inr hdone)

theorem noteInstalled_locked {installed : List PoolSet} {s : State} {i : Nat}
    {call : Call} (hcall : s.calls i = some call) {state : ConnectionState}
    {pools : Option PoolSet} {after : After}
    (hphase : call.phase = .locking state pools after) :
    noteInstalled installed s (.advance i) = pools.toList ++ installed := by
  obtain ⟨request, phase⟩ := call
  obtain rfl : phase = .locking state pools after := hphase
  simp only [noteInstalled, hcall]
  cases pools <;> rfl

theorem noteInstalled_of_not_locking {installed : List PoolSet} {s : State}
    {i : Nat} {call : Call} (hcall : s.calls i = some call) {a : Action}
    (ha : a.call? = some i)
    (hphase : ∀ state pools after, call.phase ≠ .locking state pools after) :
    noteInstalled installed s a = installed := by
  unfold noteInstalled
  split
  · obtain rfl := Option.some.inj ha
    split
    · next hlocking =>
        rw [hcall] at hlocking
        obtain rfl := Option.some.inj hlocking
        exact absurd rfl (hphase _ _ _)
    · rfl
  · rfl

/-- Every step accounts for the pools that were installed. -/
theorem Accounted.next {s t : State} {installed : List PoolSet} {a : Action}
    (h : Accounted s installed) (hstep : next s a = some t) :
    Accounted t (noteInstalled installed s a) := by
  rcases next_cases hstep with
    ⟨i, request, rfl, hnone, rfl⟩ | ⟨engine, rfl, rfl⟩ |
      ⟨i, call, hcall, ha, hmove⟩
  · intro pools hpools
    rcases h pools hpools with hheld | ⟨k, other, hother, hclosing⟩ | hdone
    · exact .inl hheld
    · have hki : k ≠ i := by
        rintro rfl
        rw [hnone] at hother
        cases hother
      exact .inr (.inl ⟨k, other,
        by rw [goto_calls_of_ne _ _ _ hki, hother], hclosing⟩)
    · exact .inr (.inr hdone)
  · exact h
  · have hquiet : ∀ {phase : Phase},
        (∀ state pools after, call.phase ≠ .locking state pools after) →
        call.phase.displaced = none →
        Accounted (s.goto i call phase) (noteInstalled installed s a) := by
      intro phase hlocking hdisplaced
      rw [noteInstalled_of_not_locking hcall ha hlocking]
      exact h.goto rfl rfl hcall id (by simp [hdisplaced])
    cases hmove with
    | locked hphase =>
        rw [noteInstalled_locked hcall hphase]
        exact h.lockSection hcall hphase
    | @closed displaced state after hphase =>
        rw [noteInstalled_of_not_locking hcall ha (by simp [hphase])]
        refine h.goto (u := s.close displaced) rfl rfl hcall
          (fun hdone => hdone.close displaced) ?_
        intro pools hpools
        rw [hphase] at hpools
        obtain rfl := Option.some.inj hpools
        exact s.closed_close displaced
    | @published state after hphase =>
        rw [noteInstalled_of_not_locking hcall ha (by simp [hphase])]
        exact h.goto (u := s.publish _) rfl rfl hcall id
          (by simp [hphase, Phase.displaced])
    | @discarded pools hphase =>
        rw [noteInstalled_of_not_locking hcall ha (by simp [hphase])]
        exact h.goto (u := s.close pools) rfl rfl hcall
          (fun hdone => hdone.close pools) (by simp [hphase, Phase.displaced])
    | found _ hphase _ => exact hquiet (by simp [hphase]) (by rw [hphase]; rfl)
    | missing _ hphase _ =>
        exact hquiet (by simp [hphase]) (by rw [hphase]; rfl)
    | passed _ hphase _ =>
        exact hquiet (by simp [hphase]) (by rw [hphase]; rfl)
    | beaten _ hphase _ =>
        exact hquiet (by simp [hphase]) (by rw [hphase]; rfl)
    | stuck _ hphase _ =>
        exact hquiet (by simp [hphase]) (by rw [hphase]; rfl)
    | released _ hphase _ =>
        exact hquiet (by simp [hphase]) (by rw [hphase]; rfl)
    | builtUser hphase => exact hquiet (by simp [hphase]) (by rw [hphase]; rfl)
    | builtMetadata hphase =>
        exact hquiet (by simp [hphase]) (by rw [hphase]; rfl)
    | buildFailed hphase =>
        rcases hphase with hphase | ⟨user, hphase⟩ <;>
          exact hquiet (by simp [hphase]) (by rw [hphase]; rfl)
    | warmed hphase => exact hquiet (by simp [hphase]) (by rw [hphase]; rfl)
    | warmUpFailed hphase =>
        exact hquiet (by simp [hphase]) (by rw [hphase]; rfl)
    | aborted hphase => exact hquiet (by simp [hphase]) (by rw [hphase]; rfl)

theorem accounted_of_reachable {p : State × List PoolSet}
    (h : ledger.Reachable p) : Accounted p.1 p.2 := by
  refine h.invariant (I := fun p => Accounted p.1 p.2) ?_ ?_
  · rintro ⟨s, installed⟩ ⟨-, rfl : installed = []⟩ pools hpools
    cases hpools
  · rintro p a ⟨t, installed⟩ ⟨hstep, rfl⟩ hp
    exact hp.next hstep

/-- In every reachable state an entry holds pools if and only if it is
`Connected`, and as soon as no call is between its lock section and its close,
all pools that were installed and are held no longer have been closed. -/
theorem pools_agree_and_close {p : State × List PoolSet}
    (h : ledger.Reachable p) :
    (∀ id entry, p.1.entries id = some entry →
      (entry.pools.isSome = true ↔ entry.state = .connected)) ∧
    (p.1.AllClosed → ∀ pools ∈ p.2, (∀ id, p.1.pools id ≠ some pools) →
      p.1.Closed pools) := by
  refine ⟨?_, ?_⟩
  · intro id entry hentry
    exact (entriesFit_of_reachable h.of_watch).entries hentry
  · intro hall pools hpools hunheld
    rcases accounted_of_reachable h pools hpools with
      ⟨id, hheld⟩ | ⟨i, call, hcall, hclosing⟩ | hclosed
    · exact absurd hheld (hunheld id)
    · rw [hall i call hcall] at hclosing
      cases hclosing
    · exact hclosed

/-- A step of another call leaves call `i` where it is. -/
theorem next_calls_of_ne {s t : State} {a : Action} (h : next s a = some t)
    {i : Nat} (hi : a.call? ≠ some i) : t.calls i = s.calls i := by
  rcases next_cases h with
    ⟨k, request, rfl, -, rfl⟩ | ⟨engine, -, rfl⟩ | ⟨k, call, -, ha, hmove⟩
  · have hik : i ≠ k := by
      rintro rfl
      exact hi rfl
    rw [goto_calls_of_ne _ _ _ hik]
  · rfl
  · have hik : i ≠ k := by
      rintro rfl
      exact hi ha
    obtain ⟨phase, hcalls⟩ := hmove.calls
    rw [hcalls, Function.update_of_ne hik]

theorem run_calls_of_ne {s t : State} {as : List Action}
    (h : system.Run s as t) {i : Nat} (hi : ∀ a ∈ as, a.call? ≠ some i) :
    t.calls i = s.calls i := by
  induction h with
  | nil => rfl
  | snoc _ hstep ih =>
      rw [next_calls_of_ne hstep (hi _ (by simp)),
        ih fun a ha => hi a (by simp [ha])]

/-- A `connect` that installs pools, and a `disconnect` that closes them. -/
def connectAndDisconnect : List Action :=
  [.registerDriver "postgresql", .start 0 (.connect ⟨⟨"c"⟩, .postgres⟩),
    .advance 0, .advance 0, .advance 0, .build 0 (.ok ()), .build 0 (.ok ()),
    .warmUp 0 (.ok ()), .advance 0, .advance 0, .advance 0,
    .start 1 (.disconnect ⟨"c"⟩), .advance 1, .advance 1, .advance 1]

theorem pools_agree_and_close_disconnected :
    ∃ p : State × List PoolSet, p.2 ≠ [] ∧ p.1.AllClosed ∧
      p.1.entries ⟨"c"⟩ = some ⟨.disconnected, none⟩ ∧
      (∀ id entry, p.1.entries id = some entry →
        (entry.pools.isSome = true ↔ entry.state = .connected)) ∧
      ∀ pools ∈ p.2, (∀ id, p.1.pools id ≠ some pools) → p.1.Closed pools := by
  let fresh : State × List PoolSet := (State.withPoolConfig 8, [])
  let run := System.follow (System.watchNext next noteInstalled) fresh
    connectAndDisconnect
  have hsome : run.isSome = true := by decide
  obtain ⟨p, hp⟩ := Option.isSome_iff_exists.1 hsome
  have hinstalled : run.map (fun p => p.2.isEmpty) = some false := by decide
  have hcalls : run.map (fun p => [p.1.calls 0, p.1.calls 1].map fun call =>
      call.bind fun call => call.phase.displaced) = some [none, none] := by
    decide
  have hentry : run.map (fun p => p.1.entries ⟨"c"⟩) =
      some (some ⟨.disconnected, none⟩) := by decide
  rw [hp, Option.map_some] at hinstalled hcalls hentry
  simp only [Option.some.injEq, List.map_cons, List.map_nil, List.cons.injEq,
    and_true] at hinstalled hcalls hentry
  have hrun : ledger.Run fresh connectAndDisconnect p :=
    System.run_of_follow System.watch_step_of_watchNext hp
  have hidle : p.1.AllClosed := by
    intro i call hcall
    by_cases hi : i = 0 ∨ i = 1
    · rcases hi with rfl | rfl
      · simpa [hcall] using hcalls.1
      · simpa [hcall] using hcalls.2
    · -- the run has steps of calls 0 and 1 alone
      have hothers : ∀ a ∈ connectAndDisconnect,
          a.call?.all (fun j => decide (j = 0 ∨ j = 1)) = true := by decide
      have hnone : p.1.calls i = none := by
        refine run_calls_of_ne hrun.of_watch ?_
        intro a ha hcalls
        have hbelow := hothers a ha
        rw [hcalls] at hbelow
        exact hi (of_decide_eq_true hbelow)
      rw [hnone] at hcall
      cases hcall
  obtain ⟨hagree, hclosed⟩ := pools_agree_and_close ⟨fresh, _,
    ⟨fresh_withPoolConfig 8, rfl⟩, hrun⟩
  refine ⟨p, ?_, hidle, hentry, hagree, hclosed hidle⟩
  intro hnil
  rw [hnil] at hinstalled
  cases hinstalled

end Tempr.Services.ConnectionService
