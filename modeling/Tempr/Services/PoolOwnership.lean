import Tempr.Services.Connection

/-!
# Who holds a pool

Every step of a call is one of a few moves. From the moves follows that a pool
has one owner at a time: the call that builds it, then at most one entry, then
the call that displaced it and closes it.
-/

namespace Tempr.Services.ConnectionService

open Tempr.Support

/-! ## The moves of a call -/

/-- What one step of `call` does. -/
inductive CallStep (s : State) (i : Nat) (call : Call) : Action → State → Prop
  | locked {state pools after} :
      call.phase = .locking state pools after →
      CallStep s i call (.advance i) (lockSection s i call state pools after)
  | closed {displaced state after} :
      call.phase = .closing displaced state after →
      CallStep s i call (.advance i)
        ((s.close displaced).goto i call (.publishing state after))
  | published {state after} :
      call.phase = .publishing state after →
      CallStep s i call (.advance i)
        ((s.publish (.connectionStateChanged call.request.id state)).goto i call
          (resume after))
  | found {connection} :
      call.request = .connect connection → call.phase = .lookup →
      connection.driver.engineName ∈ s.drivers →
      CallStep s i call (.advance i) (s.goto i call .buildingUser)
  | missing {connection} :
      call.request = .connect connection → call.phase = .lookup →
      connection.driver.engineName ∉ s.drivers →
      CallStep s i call (.advance i)
        (s.goto i call (failing (noDriver connection.driver.engineName)))
  | passed {connection pools} :
      call.request = .connect connection → call.phase = .checking pools →
      s.connecting connection.id = true →
      CallStep s i call (.advance i)
        (s.goto i call
          (.locking .connected (some pools) (.ended (.returned (.ok ())))))
  | beaten {connection pools} :
      call.request = .connect connection → call.phase = .checking pools →
      s.connecting connection.id = false →
      CallStep s i call (.advance i) (s.goto i call (.discarding pools))
  | discarded {pools} :
      call.phase = .discarding pools →
      CallStep s i call (.advance i)
        ((s.close pools).goto i call
          (.finished (.returned (.error disconnectedMeanwhile))))
  | stuck {connection ending} :
      call.request = .connect connection → call.phase = .guarding ending →
      s.connecting connection.id = true →
      CallStep s i call (.advance i)
        (s.goto i call (.locking .failed none (.ended ending)))
  | released {connection ending} :
      call.request = .connect connection → call.phase = .guarding ending →
      s.connecting connection.id = false →
      CallStep s i call (.advance i) (s.goto i call (.finished ending))
  | builtUser :
      call.phase = .buildingUser →
      CallStep s i call (.build i (.ok ()))
        (s.goto i call (.buildingMetadata ⟨i, .user, max s.maxSize 1⟩))
  | builtMetadata {user} :
      call.phase = .buildingMetadata user →
      CallStep s i call (.build i (.ok ()))
        (s.goto i call (.warming ⟨user, ⟨i, .metadata, 1⟩⟩))
  | buildFailed {reason} :
      call.phase = .buildingUser ∨ (∃ user, call.phase = .buildingMetadata user) →
      CallStep s i call (.build i (.error reason))
        (s.goto i call (.guarding (.returned (.error (poolBuildFailed reason)))))
  | warmed {pools} :
      call.phase = .warming pools →
      CallStep s i call (.warmUp i (.ok ())) (s.goto i call (.checking pools))
  | warmUpFailed {pools error} :
      call.phase = .warming pools →
      CallStep s i call (.warmUp i (.error error))
        (s.goto i call (failing (warmUpFailed error)))
  | aborted {pools} :
      call.phase = .warming pools →
      CallStep s i call (.abort i) (s.goto i call (.guarding .dropped))

/-- A step of call `i` moves only call `i`. -/
theorem CallStep.calls {s t : State} {i : Nat} {call : Call} {a : Action}
    (h : CallStep s i call a t) :
    ∃ phase, t.calls = Function.update s.calls i (some { call with phase }) := by
  cases h <;> exact ⟨_, rfl⟩

theorem advance_callStep {s t : State} {i : Nat} {call : Call}
    (h : advance s i call = some t) : CallStep s i call (.advance i) t := by
  obtain ⟨request, phase⟩ := call
  unfold advance at h
  split at h
  · obtain rfl := Option.some.inj h
    exact .locked ‹_›
  · obtain rfl := Option.some.inj h
    exact .closed ‹_›
  · obtain rfl := Option.some.inj h
    exact .published ‹_›
  · obtain rfl := Option.some.inj h
    split
    · exact .found ‹_› ‹_› ‹_›
    · exact .missing ‹_› ‹_› ‹_›
  · obtain rfl := Option.some.inj h
    split
    · exact .passed ‹_› ‹_› ‹_›
    · exact .beaten ‹_› ‹_› (Bool.eq_false_iff.2 ‹_›)
  · obtain rfl := Option.some.inj h
    exact .discarded ‹_›
  · obtain rfl := Option.some.inj h
    split
    · exact .stuck ‹_› ‹_› ‹_›
    · exact .released ‹_› ‹_› (Bool.eq_false_iff.2 ‹_›)
  · cases h

theorem build_callStep {s t : State} {i : Nat} {call : Call}
    {reply : Except String Unit} (h : build s i call reply = some t) :
    CallStep s i call (.build i reply) t := by
  unfold build at h
  split at h
  · obtain rfl := Option.some.inj h
    exact .builtUser ‹_›
  · obtain rfl := Option.some.inj h
    exact .builtMetadata ‹_›
  · obtain rfl := Option.some.inj h
    exact .buildFailed (.inl ‹_›)
  · obtain rfl := Option.some.inj h
    exact .buildFailed (.inr ⟨_, ‹_›⟩)
  · cases h

theorem warmUp_callStep {s t : State} {i : Nat} {call : Call}
    {reply : Except PoolError Unit} (h : warmUp s i call reply = some t) :
    CallStep s i call (.warmUp i reply) t := by
  unfold warmUp at h
  split at h
  · obtain rfl := Option.some.inj h
    exact .warmed ‹_›
  · obtain rfl := Option.some.inj h
    exact .warmUpFailed ‹_›
  · cases h

theorem abort_callStep {s t : State} {i : Nat} {call : Call}
    (h : abort s i call = some t) : CallStep s i call (.abort i) t := by
  unfold abort at h
  split at h
  · obtain rfl := Option.some.inj h
    exact .aborted ‹_›
  · cases h

/-- A step starts a call, registers a driver, or is a step of a call. -/
theorem next_cases {s t : State} {a : Action} (h : next s a = some t) :
    (∃ i request, a = .start i request ∧ s.calls i = none ∧
      t = s.goto i ⟨request, firstPhase request⟩ (firstPhase request)) ∨
    (∃ engine, a = .registerDriver engine ∧
      t = { s with drivers := engine :: s.drivers }) ∨
    (∃ i call, s.calls i = some call ∧ a.call? = some i ∧
      CallStep s i call a t) := by
  cases a with
  | start i request =>
      left
      simp only [next] at h
      split at h
      · exact ⟨i, request, rfl, ‹_›, (Option.some.inj h).symm⟩
      · cases h
  | registerDriver engine =>
      exact .inr (.inl ⟨engine, rfl, (Option.some.inj h).symm⟩)
  | advance i =>
      obtain ⟨call, hcall, hstep⟩ := Option.bind_eq_some_iff.1 h
      exact .inr (.inr ⟨i, call, hcall, rfl, advance_callStep hstep⟩)
  | build i reply =>
      obtain ⟨call, hcall, hstep⟩ := Option.bind_eq_some_iff.1 h
      exact .inr (.inr ⟨i, call, hcall, rfl, build_callStep hstep⟩)
  | warmUp i reply =>
      obtain ⟨call, hcall, hstep⟩ := Option.bind_eq_some_iff.1 h
      exact .inr (.inr ⟨i, call, hcall, rfl, warmUp_callStep hstep⟩)
  | abort i =>
      obtain ⟨call, hcall, hstep⟩ := Option.bind_eq_some_iff.1 h
      exact .inr (.inr ⟨i, call, hcall, rfl, abort_callStep hstep⟩)

/-! ## Owners -/

end ConnectionService

def PoolSet.toList (pools : PoolSet) : List Pool :=
  [pools.user, pools.metadata]

theorem PoolSet.close_eq_true {pools : PoolSet} {closed : Pool → Bool}
    {pool : Pool} (h : pools.close closed pool = true) :
    closed pool = true ∨ pool ∈ pools.toList := by
  by_cases hmetadata : pool = pools.metadata
  · exact .inr (by simp [toList, hmetadata])
  · by_cases huser : pool = pools.user
    · exact .inr (by simp [toList, huser])
    · exact .inl (by simpa [close, hmetadata, huser] using h)

namespace ConnectionService

/-- The pools a `connect` has built and not yet installed or discarded. -/
def Phase.hands : Phase → List Pool
  | locking _ (some pools) _ => pools.toList
  | buildingMetadata user => [user]
  | warming pools => pools.toList
  | checking pools => pools.toList
  | discarding pools => pools.toList
  | _ => []

/-- The pools a call has displaced and not yet closed. -/
def Phase.displaced : Phase → Option PoolSet
  | closing displaced _ _ => some displaced
  | _ => none

/-- The call has taken its last lock section, or ended without one. -/
def Phase.settled : Phase → Bool
  | closing _ _ (.ended _) => true
  | publishing _ (.ended _) => true
  | finished _ => true
  | _ => false

/-- `pool` is in the hands of call `i`. -/
def State.InHands (s : State) (pool : Pool) (i : Nat) : Prop :=
  ∃ call, s.calls i = some call ∧ pool ∈ call.phase.hands

/-- `pool` is held by the entry of `id`. -/
def State.Held (s : State) (pool : Pool) (id : ConnectionId) : Prop :=
  ∃ pools, s.pools id = some pools ∧ pool ∈ pools.toList

/-- `pool` has been displaced by call `i`, which has yet to close it. -/
def State.Displaced (s : State) (pool : Pool) (i : Nat) : Prop :=
  ∃ call pools, s.calls i = some call ∧
    call.phase.displaced = some pools ∧ pool ∈ pools.toList

/-- Call `i` will write no entry any more. -/
def State.Settled (s : State) (i : Nat) : Prop :=
  ∃ call, s.calls i = some call ∧ call.phase.settled = true

/-- A pool belongs to the call that builds it, then to one entry, and then to
the call that displaced it. -/
structure PoolsOwned (s : State) : Prop where
  inHands : ∀ {pool i}, s.InHands pool i → pool.builder = i
  held : ∀ {pool id}, s.Held pool id → s.Settled pool.builder
  displaced : ∀ {pool i}, s.Displaced pool i → s.Settled pool.builder
  held_unique : ∀ {pool id id'}, s.Held pool id → s.Held pool id' → id = id'
  held_or_displaced : ∀ {pool id i}, s.Held pool id → ¬ s.Displaced pool i
  installs : ∀ {i call state pools}, s.calls i = some call →
    call.phase ≠ .locking state (some pools) .lookup

/-- A pool whose builder is settled is in nobody's hands. -/
theorem PoolsOwned.not_inHands {s : State} (h : PoolsOwned s) {pool : Pool}
    (hsettled : s.Settled pool.builder) (i : Nat) : ¬ s.InHands pool i := by
  intro hin
  obtain rfl := h.inHands hin
  obtain ⟨call, hcall, hhands⟩ := hin
  obtain ⟨call', hcall', hset⟩ := hsettled
  obtain rfl : call = call' := by simpa [hcall] using hcall'
  cases hphase : call.phase <;> simp_all [Phase.hands, Phase.settled]

/-- The owners after a step of call `i` that writes no entry. -/
theorem PoolsOwned.goto {s u : State} (h : PoolsOwned s)
    (hentries : u.entries = s.entries) (hcalls : u.calls = s.calls)
    {i : Nat} {call : Call} {phase : Phase}
    (hsettled : s.Settled i → phase.settled = true)
    (hhands : ∀ pool ∈ phase.hands, pool.builder = i)
    (hdisplaced : phase.displaced = none)
    (hinstalls : ∀ state pools, phase ≠ .locking state (some pools) .lookup) :
    PoolsOwned (u.goto i call phase) := by
  have hheld : ∀ {pool id}, (u.goto i call phase).Held pool id →
      s.Held pool id := by
    intro pool id hpool
    simpa [State.Held, State.pools, hentries] using hpool
  have hsettles : ∀ {k}, s.Settled k → (u.goto i call phase).Settled k := by
    intro k hk
    by_cases hki : k = i
    · subst hki
      exact ⟨_, goto_calls_self u k call phase, hsettled hk⟩
    · obtain ⟨other, hother, hset⟩ := hk
      exact ⟨other, by rw [goto_calls_of_ne u call phase hki, hcalls, hother],
        hset⟩
  have hdisplaces : ∀ {pool k}, (u.goto i call phase).Displaced pool k →
      s.Displaced pool k := by
    intro pool k hpool
    obtain ⟨other, pools, hother, hpools, hmem⟩ := hpool
    by_cases hki : k = i
    · subst hki
      obtain rfl : { call with phase } = other := by simpa using hother
      simp [hdisplaced] at hpools
    · rw [goto_calls_of_ne u call phase hki, hcalls] at hother
      exact ⟨other, pools, hother, hpools, hmem⟩
  constructor
  · intro pool k hpool
    obtain ⟨other, hother, hmem⟩ := hpool
    by_cases hki : k = i
    · subst hki
      obtain rfl : { call with phase } = other := by simpa using hother
      exact hhands pool hmem
    · rw [goto_calls_of_ne u call phase hki, hcalls] at hother
      exact h.inHands ⟨other, hother, hmem⟩
  · intro pool id hpool
    exact hsettles (h.held (hheld hpool))
  · intro pool k hpool
    exact hsettles (h.displaced (hdisplaces hpool))
  · intro pool id id' hpool hpool'
    exact h.held_unique (hheld hpool) (hheld hpool')
  · intro pool id k hpool hpool'
    exact h.held_or_displaced (hheld hpool) (hdisplaces hpool')
  · intro k other state pools hother
    by_cases hki : k = i
    · subst hki
      obtain rfl : { call with phase } = other := by simpa using hother
      exact hinstalls state pools
    · rw [goto_calls_of_ne u call phase hki, hcalls] at hother
      exact h.installs hother

/-- What an entry holds after the lock section of a `transition`. -/
theorem lockSection_held {s : State} {i : Nat} {call : Call}
    {state : ConnectionState} {pools : Option PoolSet} {after : After}
    {pool : Pool} {id : ConnectionId}
    (h : (lockSection s i call state pools after).Held pool id) :
    (id = call.request.id ∧ ∃ own, pools = some own ∧ pool ∈ own.toList) ∨
    (id ≠ call.request.id ∧ s.Held pool id) := by
  obtain ⟨held, hheld, hmem⟩ := h
  by_cases hid : id = call.request.id
  · subst hid
    exact .inl ⟨rfl, held, by
      simpa [lockSection, State.pools, State.write] using hheld, hmem⟩
  · exact .inr ⟨hid, held, by
      simpa [lockSection, State.pools, State.write, hid] using hheld, hmem⟩

/-- What a call has displaced after the lock section of a `transition`. -/
theorem lockSection_displaced {s : State} {i : Nat} {call : Call}
    {state : ConnectionState} {pools : Option PoolSet} {after : After}
    {pool : Pool} {k : Nat}
    (h : (lockSection s i call state pools after).Displaced pool k) :
    (k = i ∧ s.Held pool call.request.id) ∨
    (k ≠ i ∧ s.Displaced pool k) := by
  obtain ⟨other, displaced, hother, hdisplaced, hmem⟩ := h
  by_cases hki : k = i
  · subst hki
    left
    refine ⟨rfl, displaced, ?_, hmem⟩
    unfold lockSection at hother
    rw [goto_calls_self] at hother
    obtain rfl := Option.some.inj hother
    cases hold : s.pools call.request.id <;>
      simp_all [Phase.displaced]
  · right
    unfold lockSection at hother
    rw [goto_calls_of_ne _ _ _ hki] at hother
    exact ⟨hki, other, displaced, hother, hdisplaced, hmem⟩

theorem PoolsOwned.lockSection {s : State} (h : PoolsOwned s) {i : Nat}
    {call : Call} (hcall : s.calls i = some call) {state : ConnectionState}
    {pools : Option PoolSet} {after : After}
    (hphase : call.phase = .locking state pools after) :
    PoolsOwned (lockSection s i call state pools after) := by
  have hunsettled : ¬ s.Settled i := by
    intro hsettled
    obtain ⟨other, hother, hset⟩ := hsettled
    obtain rfl : call = other := by simpa [hcall] using hother
    simp [hphase, Phase.settled] at hset
  have hown : ∀ {own pool}, pools = some own → pool ∈ own.toList →
      pool.builder = i := by
    intro own pool hpools hmem
    exact h.inHands ⟨call, hcall, by simpa [hphase, hpools, Phase.hands] using hmem⟩
  have hothers : ∀ {k}, k ≠ i →
      (ConnectionService.lockSection s i call state pools after).calls k
        = s.calls k := by
    intro k hki
    unfold ConnectionService.lockSection
    rw [goto_calls_of_ne _ _ _ hki]
    rfl
  have hsettles : ∀ {k}, s.Settled k →
      (ConnectionService.lockSection s i call state pools after).Settled k := by
    intro k hk
    have hki : k ≠ i := by
      intro hki
      exact hunsettled (hki ▸ hk)
    obtain ⟨other, hother, hset⟩ := hk
    exact ⟨other, by rw [hothers hki, hother], hset⟩
  constructor
  · intro pool k hpool
    obtain ⟨other, hother, hmem⟩ := hpool
    by_cases hki : k = i
    · subst hki
      unfold ConnectionService.lockSection at hother
      rw [goto_calls_self] at hother
      obtain rfl := Option.some.inj hother
      cases hold : s.pools call.request.id <;>
        simp [hold, Phase.hands] at hmem
    · exact h.inHands ⟨other, by rw [← hothers hki, hother], hmem⟩
  · intro pool id hpool
    rcases lockSection_held hpool with ⟨-, own, hpools, hmem⟩ | ⟨-, hheld⟩
    · rw [hown hpools hmem]
      -- the pools are installed by the call's last lock section
      cases hafter : after with
      | lookup =>
          subst hafter hpools
          exact absurd hphase (h.installs hcall)
      | ended ending =>
          refine ⟨_, goto_calls_self _ _ _ _, ?_⟩
          cases hold : s.pools call.request.id <;> simp [Phase.settled]
    · exact hsettles (h.held hheld)
  · intro pool k hpool
    rcases lockSection_displaced hpool with ⟨-, hheld⟩ | ⟨-, hdisplaced⟩
    · exact hsettles (h.held hheld)
    · exact hsettles (h.displaced hdisplaced)
  · intro pool id id' hpool hpool'
    rcases lockSection_held hpool with ⟨hid, own, hpools, hmem⟩ | ⟨hid, hheld⟩ <;>
      rcases lockSection_held hpool' with
        ⟨hid', own', hpools', hmem'⟩ | ⟨hid', hheld'⟩
    · rw [hid, hid']
    · exact absurd (hown hpools hmem ▸ h.held hheld') hunsettled
    · exact absurd (hown hpools' hmem' ▸ h.held hheld) hunsettled
    · exact h.held_unique hheld hheld'
  · intro pool id k hpool hpool'
    rcases lockSection_held hpool with ⟨hid, own, hpools, hmem⟩ | ⟨hid, hheld⟩ <;>
      rcases lockSection_displaced hpool' with
        ⟨hki, hheld'⟩ | ⟨hki, hdisplaced⟩
    · exact hunsettled (hown hpools hmem ▸ h.held hheld')
    · exact hunsettled (hown hpools hmem ▸ h.displaced hdisplaced)
    · exact hid (h.held_unique hheld hheld')
    · exact h.held_or_displaced hheld hdisplaced
  · intro k other state' pools' hother
    by_cases hki : k = i
    · subst hki
      unfold ConnectionService.lockSection at hother
      rw [goto_calls_self] at hother
      obtain rfl := Option.some.inj hother
      cases s.pools call.request.id <;> simp
    · exact h.installs (by rw [← hothers hki, hother])

/-- Every step keeps every pool with one owner. -/
theorem PoolsOwned.next {s t : State} {a : Action} (h : PoolsOwned s)
    (hstep : next s a = some t) : PoolsOwned t := by
  rcases next_cases hstep with
    ⟨i, request, -, hnone, rfl⟩ | ⟨engine, -, rfl⟩ | ⟨i, call, hcall, -, hmove⟩
  · refine h.goto rfl rfl ?_ ?_ ?_ ?_
    · intro hsettled
      obtain ⟨other, hother, -⟩ := hsettled
      simp [hnone] at hother
    · cases request <;> simp [firstPhase, Phase.hands]
    · cases request <;> rfl
    · cases request <;> simp [firstPhase]
  · exact ⟨h.inHands, h.held, h.displaced, h.held_unique, h.held_or_displaced,
      h.installs⟩
  · have hkeeps : s.Settled i → call.phase.settled = true := by
      intro hsettled
      obtain ⟨other, hother, hset⟩ := hsettled
      obtain rfl : call = other := by simpa [hcall] using hother
      exact hset
    have hown : ∀ pool ∈ call.phase.hands, pool.builder = i := by
      intro pool hmem
      exact h.inHands ⟨call, hcall, hmem⟩
    cases hmove with
    | locked hphase => exact h.lockSection hcall hphase
    | @closed displaced state after hphase =>
        refine h.goto (u := s.close displaced) rfl rfl ?_
          (by simp [Phase.hands]) rfl (by simp)
        cases after with
        | lookup => simpa [hphase, Phase.settled] using hkeeps
        | ended ending => exact fun _ => rfl
    | @published state after hphase =>
        refine h.goto (u := s.publish _) rfl rfl ?_ ?_ ?_ ?_
        · cases after with
          | lookup => simpa [hphase, Phase.settled, resume] using hkeeps
          | ended ending => exact fun _ => rfl
        · cases after <;> simp [resume, Phase.hands]
        · cases after <;> rfl
        · cases after <;> simp [resume]
    | found _ hphase _ =>
        refine h.goto rfl rfl ?_ (by simp [Phase.hands]) rfl (by simp)
        simpa [hphase, Phase.settled] using hkeeps
    | missing _ hphase _ =>
        refine h.goto rfl rfl ?_ (by simp [failing, Phase.hands]) rfl
          (by simp [failing])
        simpa [hphase, failing, Phase.settled] using hkeeps
    | passed _ hphase _ =>
        refine h.goto rfl rfl ?_ ?_ rfl (by simp)
        · simpa [hphase, Phase.settled] using hkeeps
        · simpa [hphase, Phase.hands] using hown
    | beaten _ hphase _ =>
        refine h.goto rfl rfl ?_ ?_ rfl (by simp)
        · simpa [hphase, Phase.settled] using hkeeps
        · simpa [hphase, Phase.hands] using hown
    | @discarded pools hphase =>
        exact h.goto (u := s.close pools) rfl rfl (fun _ => rfl)
          (by simp [Phase.hands]) rfl (by simp)
    | stuck _ hphase _ =>
        refine h.goto rfl rfl ?_ (by simp [Phase.hands]) rfl (by simp)
        simpa [hphase, Phase.settled] using hkeeps
    | released _ hphase _ =>
        exact h.goto rfl rfl (fun _ => rfl) (by simp [Phase.hands]) rfl (by simp)
    | builtUser hphase =>
        refine h.goto rfl rfl ?_ (by simp [Phase.hands]) rfl (by simp)
        simpa [hphase, Phase.settled] using hkeeps
    | builtMetadata hphase =>
        refine h.goto rfl rfl ?_ ?_ rfl (by simp)
        · simpa [hphase, Phase.settled] using hkeeps
        · simpa [hphase, Phase.hands, PoolSet.toList] using hown
    | buildFailed hphase =>
        refine h.goto rfl rfl ?_ (by simp [Phase.hands]) rfl (by simp)
        intro hsettled
        have hset := hkeeps hsettled
        rcases hphase with hphase | ⟨user, hphase⟩ <;>
          simp [hphase, Phase.settled] at hset
    | warmed hphase =>
        refine h.goto rfl rfl ?_ ?_ rfl (by simp)
        · simpa [hphase, Phase.settled] using hkeeps
        · simpa [hphase, Phase.hands] using hown
    | warmUpFailed hphase =>
        refine h.goto rfl rfl ?_ (by simp [failing, Phase.hands]) rfl
          (by simp [failing])
        simpa [hphase, failing, Phase.settled] using hkeeps
    | aborted hphase =>
        refine h.goto rfl rfl ?_ (by simp [Phase.hands]) rfl (by simp)
        simpa [hphase, Phase.settled] using hkeeps

theorem poolsOwned_of_fresh {s : State} (h : Fresh s) : PoolsOwned s := by
  obtain ⟨hentries, hcalls, -⟩ := h
  constructor <;>
    simp [State.InHands, State.Held, State.Displaced, State.pools, hentries,
      hcalls]

/-- In every reachable state every pool has one owner. -/
theorem poolsOwned_of_reachable {s : State} (h : system.Reachable s) :
    PoolsOwned s :=
  h.invariant (fun _ => poolsOwned_of_fresh) fun _ _ _ hstep hs => hs.next hstep

end Tempr.Services.ConnectionService
