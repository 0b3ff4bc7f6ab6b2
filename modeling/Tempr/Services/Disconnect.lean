import Tempr.Services.PoolOwnership

/-!
# A disconnect against a connect in flight

A `connect` is overtaken by a `disconnect` of its connection that takes its lock
section while the `connect` is in flight. `connect` reads whether its entry is
still `Connecting` before it installs its pools, but it does not recognise its
own attempt, and a failing attempt writes `Failed` without looking. An
overtaken `connect` leaves the entry alone as long as it meets none of this.
-/

namespace Tempr.Services.ConnectionService

open Tempr.Support

/-! ## Overtaken calls -/

/-- The connection that a `connect` call is about. -/
def Call.connectsTo (call : Call) : Option ConnectionId :=
  match call.request with
  | .connect connection => some connection.id
  | .disconnect _ => none

/-- The call has written `Connecting` and has not ended. -/
def Phase.inFlight : Phase → Bool
  | locking .connecting _ _ => false
  | finished _ => false
  | _ => true

/-- The call is about to take a lock section that writes the entry. -/
def Phase.writing : Phase → Bool
  | locking _ _ _ => true
  | _ => false

/-- The connects of `id` that are in flight. -/
def State.connectsInFlight (s : State) (id : ConnectionId) (i : Nat) : Bool :=
  (s.calls i).any fun call =>
    decide (call.connectsTo = some id) && call.phase.inFlight

/-- Records which calls have been overtaken: the lock section of a `disconnect`
overtakes every `connect` of its connection in flight. -/
def noteOvertaken (overtaken : Nat → Bool) (s : State) :
    Action → Nat → Bool
  | .advance k =>
      match s.calls k with
      | some ⟨.disconnect id, .locking _ _ _⟩ =>
          fun i => overtaken i || s.connectsInFlight id i
      | _ => overtaken
  | _ => overtaken

/-- The service, with the record of the overtaken calls. -/
def watched : System (State × (Nat → Bool)) Action :=
  system.watch (fun _ => false) noteOvertaken

/-- `pool` is held by an entry or in the hands of a call. -/
def State.InUse (s : State) (pool : Pool) : Prop :=
  (∃ id, s.Held pool id) ∨ ∃ k, s.InHands pool k

/-- A step of call `i` from `s` to `t` that changes no entry and closes no pool
in use other than the call's own. -/
def LeavesAlone (i : Nat) (s t : State) : Prop :=
  t.entries = s.entries ∧
    ∀ pool, t.closed pool = true →
      s.closed pool = true ∨ pool.builder = i ∨ ¬ s.InUse pool

/-- The step does not lead an overtaken call to write its entry: it does not
fail for want of a driver or in its warm-up, it does not find the entry
`Connecting` (of a newer `connect`) in its check or its guard, and no
`disconnect` takes its lock section when a `connect` has already decided on its
own. -/
def Undisturbed (p : State × (Nat → Bool)) : Action → Prop
  | .advance i =>
      match p.1.calls i with
      | some ⟨.connect connection, .lookup⟩ =>
          p.2 i = true → connection.driver.engineName ∈ p.1.drivers
      | some ⟨.connect connection, .checking _⟩ =>
          p.2 i = true → p.1.connecting connection.id = false
      | some ⟨.connect connection, .guarding _⟩ =>
          p.2 i = true → p.1.connecting connection.id = false
      | some ⟨.disconnect id, .locking _ _ _⟩ =>
          ∀ k call, p.1.calls k = some call →
            call.connectsTo = some id → call.phase.inFlight = true →
            call.phase.writing = false
      | _ => True
  | .warmUp i (.error _) => p.2 i = false
  | _ => True

/-- Every overtaken call is a `connect` that is about to take no lock section. -/
def OvertakenQuiet (p : State × (Nat → Bool)) : Prop :=
  ∀ i, p.2 i = true → ∃ call connection, p.1.calls i = some call ∧
    call.request = .connect connection ∧ call.phase.writing = false

/-! ## What an overtaken call does -/

theorem connectsInFlight_cases {s : State} {id : ConnectionId} {i : Nat}
    (h : s.connectsInFlight id i = true) :
    ∃ call connection, s.calls i = some call ∧
      call.request = .connect connection ∧ connection.id = id ∧
      call.phase.inFlight = true := by
  unfold State.connectsInFlight at h
  cases hcall : s.calls i with
  | none => simp [hcall] at h
  | some call =>
      obtain ⟨request, phase⟩ := call
      cases request with
      | disconnect id' => simp [hcall, Call.connectsTo] at h
      | connect connection =>
          simp only [hcall, Option.any_some, Call.connectsTo,
            Bool.and_eq_true, decide_eq_true_eq, Option.some.injEq] at h
          exact ⟨_, connection, rfl, rfl, h.1, h.2⟩

/-- The lock section of a `disconnect`, if the step is one. -/
theorem noteOvertaken_cases (overtaken : Nat → Bool) (s : State) (a : Action) :
    noteOvertaken overtaken s a = overtaken ∨
    ∃ k id state pools after, a = .advance k ∧
      s.calls k = some ⟨.disconnect id, .locking state pools after⟩ ∧
      noteOvertaken overtaken s a
        = fun i => overtaken i || s.connectsInFlight id i := by
  unfold noteOvertaken
  split
  · split
    · exact .inr ⟨_, _, _, _, _, rfl, ‹_›, rfl⟩
    · exact .inl rfl
  · exact .inl rfl

/-- An undisturbed step of an overtaken call leads to no lock section. -/
theorem CallStep.stays_quiet {s t : State} {overtaken : Nat → Bool} {i : Nat}
    {call : Call} {a : Action} (hcall : s.calls i = some call)
    (h : CallStep s i call a t) (hfair : Undisturbed (s, overtaken) a)
    (hover : overtaken i = true) (hquiet : call.phase.writing = false) :
    ∃ phase, t.calls i = some { call with phase } ∧ phase.writing = false := by
  obtain ⟨request, phase⟩ := call
  cases h with
  | locked hphase => simp_all [Phase.writing]
  | closed hphase => exact ⟨_, goto_calls_self _ _ _ _, rfl⟩
  | @published state after hphase =>
      refine ⟨_, goto_calls_self _ _ _ _, ?_⟩
      cases after <;> rfl
  | found => exact ⟨_, goto_calls_self _ _ _ _, rfl⟩
  | missing hrequest hphase hmissing =>
      obtain ⟨rfl, rfl⟩ : request = _ ∧ phase = _ := ⟨hrequest, hphase⟩
      simp only [Undisturbed, hcall] at hfair
      exact absurd (hfair hover) hmissing
  | passed hrequest hphase hconnecting =>
      obtain ⟨rfl, rfl⟩ : request = _ ∧ phase = _ := ⟨hrequest, hphase⟩
      simp only [Undisturbed, hcall] at hfair
      simp [hfair hover] at hconnecting
  | beaten => exact ⟨_, goto_calls_self _ _ _ _, rfl⟩
  | discarded => exact ⟨_, goto_calls_self _ _ _ _, rfl⟩
  | stuck hrequest hphase hconnecting =>
      obtain ⟨rfl, rfl⟩ : request = _ ∧ phase = _ := ⟨hrequest, hphase⟩
      simp only [Undisturbed, hcall] at hfair
      simp [hfair hover] at hconnecting
  | released => exact ⟨_, goto_calls_self _ _ _ _, rfl⟩
  | builtUser => exact ⟨_, goto_calls_self _ _ _ _, rfl⟩
  | builtMetadata => exact ⟨_, goto_calls_self _ _ _ _, rfl⟩
  | buildFailed => exact ⟨_, goto_calls_self _ _ _ _, rfl⟩
  | warmed => exact ⟨_, goto_calls_self _ _ _ _, rfl⟩
  | warmUpFailed => simp [Undisturbed, hover] at hfair
  | aborted => exact ⟨_, goto_calls_self _ _ _ _, rfl⟩

/-- An undisturbed step keeps every call that is already overtaken quiet. -/
theorem overtaken_stays_quiet {s t : State} {overtaken : Nat → Bool} {a : Action}
    (h : OvertakenQuiet (s, overtaken)) (hstep : next s a = some t)
    (hfair : Undisturbed (s, overtaken) a) : OvertakenQuiet (t, overtaken) := by
  intro i hover
  obtain ⟨call, connection, hcall, hrequest, hquiet⟩ := h i hover
  rcases next_cases hstep with
    ⟨k, request, -, hnone, rfl⟩ | ⟨engine, -, rfl⟩ |
      ⟨k, other, hother, -, hmove⟩
  · have hik : i ≠ k := by
      rintro rfl
      rw [hnone] at hcall
      cases hcall
    exact ⟨call, connection, (goto_calls_of_ne _ _ _ hik).trans hcall,
      hrequest, hquiet⟩
  · exact ⟨call, connection, hcall, hrequest, hquiet⟩
  · by_cases hik : i = k
    · subst hik
      obtain rfl : call = other := Option.some.inj (hcall.symm.trans hother)
      obtain ⟨phase, ht, hphase⟩ :=
        hmove.stays_quiet hcall hfair hover hquiet
      exact ⟨_, connection, ht, hrequest, hphase⟩
    · obtain ⟨phase, hcalls⟩ := hmove.calls
      refine ⟨call, connection, ?_, hrequest, hquiet⟩
      simp only
      rw [hcalls, Function.update_of_ne hik, hcall]

theorem overtakenQuiet_step {p q : State × (Nat → Bool)} {a : Action}
    (h : OvertakenQuiet p) (hstep : watched.step p a q)
    (hfair : Undisturbed p a) : OvertakenQuiet q := by
  obtain ⟨s, overtaken⟩ := p
  obtain ⟨t, overtaken'⟩ := q
  obtain ⟨hnext, hnote⟩ := hstep
  obtain rfl : overtaken' = noteOvertaken overtaken s a := hnote
  have hkeeps := overtaken_stays_quiet h hnext hfair
  rcases noteOvertaken_cases overtaken s a with
    hsame | ⟨k, id, state, pools, after, rfl, hk, hnew⟩
  · rw [hsame]
    exact hkeeps
  · rw [hnew]
    intro i hi
    rcases Bool.or_eq_true_iff.1 hi with hover | hflight
    · exact hkeeps i hover
    · -- overtaken by this very step: the call had not decided yet
      obtain ⟨call, connection, hcall, hrequest, hid, hflight⟩ :=
        connectsInFlight_cases hflight
      have hik : i ≠ k := by
        rintro rfl
        rw [hk] at hcall
        cases hcall
        cases hrequest
      simp only [Undisturbed, hk] at hfair
      refine ⟨call, connection, ?_, hrequest,
        hfair i call hcall (by simp [Call.connectsTo, hrequest, hid]) hflight⟩
      rcases next_cases hnext with
        ⟨_, _, ⟨⟩, _⟩ | ⟨_, ⟨⟩, _⟩ | ⟨k', other, hother, hcall', hmove⟩
      obtain rfl : k = k' := by simpa [Action.call?] using hcall'
      obtain ⟨phase, hcalls⟩ := hmove.calls
      rw [hcalls, Function.update_of_ne hik, hcall]

/-- In undisturbed runs no overtaken call is about to write its entry. -/
theorem overtakenQuiet_of_reachable {p : State × (Nat → Bool)}
    (h : (watched.restrict Undisturbed).Reachable p) : OvertakenQuiet p := by
  refine h.invariant ?_ ?_
  · rintro ⟨s, overtaken⟩ ⟨-, rfl : overtaken = fun _ => false⟩ i hover
    cases hover
  · intro p a q hstep hquiet
    exact overtakenQuiet_step hquiet hstep.1 hstep.2

/-! ## What a call closes -/

/-- A call that takes no lock section changes no entry, and what it closes is
its own or has been displaced. -/
theorem CallStep.leavesAlone {s t : State} {i : Nat} {call : Call} {a : Action}
    (howned : PoolsOwned s) (hcall : s.calls i = some call)
    (h : CallStep s i call a t) (hquiet : call.phase.writing = false) :
    LeavesAlone i s t := by
  have hunused : ∀ {pool}, s.Displaced pool i → ¬ s.InUse pool := by
    intro pool hdisplaced hinuse
    rcases hinuse with ⟨id, hheld⟩ | ⟨k, hhands⟩
    · exact howned.held_or_displaced hheld hdisplaced
    · exact howned.not_inHands (howned.displaced hdisplaced) k hhands
  have hsame : ∀ {u : State}, u.closed = s.closed → ∀ pool,
      u.closed pool = true →
        s.closed pool = true ∨ pool.builder = i ∨ ¬ s.InUse pool := by
    intro u hu pool hpool
    exact .inl (hu ▸ hpool)
  cases h with
  | locked hphase => simp [hphase, Phase.writing] at hquiet
  | @closed displaced state after hphase =>
      refine ⟨rfl, fun pool hpool => ?_⟩
      rcases PoolSet.close_eq_true hpool with hbefore | hmem
      · exact .inl hbefore
      · exact .inr (.inr (hunused
          ⟨call, displaced, hcall, by rw [hphase]; rfl, hmem⟩))
  | @discarded pools hphase =>
      refine ⟨rfl, fun pool hpool => ?_⟩
      rcases PoolSet.close_eq_true hpool with hbefore | hmem
      · exact .inl hbefore
      · exact .inr (.inl (howned.inHands
          ⟨call, hcall, by simpa [hphase, Phase.hands] using hmem⟩))
  | published => exact ⟨rfl, hsame rfl⟩
  | found => exact ⟨rfl, hsame rfl⟩
  | missing => exact ⟨rfl, hsame rfl⟩
  | passed => exact ⟨rfl, hsame rfl⟩
  | beaten => exact ⟨rfl, hsame rfl⟩
  | stuck => exact ⟨rfl, hsame rfl⟩
  | released => exact ⟨rfl, hsame rfl⟩
  | builtUser => exact ⟨rfl, hsame rfl⟩
  | builtMetadata => exact ⟨rfl, hsame rfl⟩
  | buildFailed => exact ⟨rfl, hsame rfl⟩
  | warmed => exact ⟨rfl, hsame rfl⟩
  | warmUpFailed => exact ⟨rfl, hsame rfl⟩
  | aborted => exact ⟨rfl, hsame rfl⟩

/-- A `disconnect` wins over an undisturbed `connect` in flight: in every run
of undisturbed steps, no step of an overtaken call installs pools, changes an
entry or closes a pool in use other than its own. -/
theorem disconnect_wins {p q : State × (Nat → Bool)} {a : Action} {i : Nat}
    (hreach : (watched.restrict Undisturbed).Reachable p)
    (hstep : (watched.restrict Undisturbed).step p a q)
    (hcall : a.call? = some i) (hover : p.2 i = true) :
    LeavesAlone i p.1 q.1 := by
  have howned : PoolsOwned p.1 :=
    poolsOwned_of_reachable hreach.of_restrict.of_watch
  obtain ⟨call, connection, hcalls, -, hquiet⟩ :=
    overtakenQuiet_of_reachable hreach i hover
  rcases next_cases hstep.1.1 with
    ⟨k, request, rfl, hnone, -⟩ | ⟨engine, rfl, -⟩ | ⟨k, other, hother, hk, hmove⟩
  · obtain rfl : k = i := by simpa [Action.call?] using hcall
    rw [hnone] at hcalls
    cases hcalls
  · cases hcall
  · obtain rfl : k = i := by simpa [hk] using hcall
    obtain rfl : other = call := by simpa [hcalls] using hother.symm
    exact hmove.leavesAlone howned hcalls hquiet

theorem undisturbed_step {p : State × (Nat → Bool)} {t : State} (a : Action)
    (hnext : next p.1 a = some t) (hfair : Undisturbed p a) :
    (watched.restrict Undisturbed).step p a (t, noteOvertaken p.2 p.1 a) :=
  ⟨⟨hnext, rfl⟩, hfair⟩

/-- A `connect` overtaken before it published `Connecting`. -/
theorem disconnect_wins_publishing :
    ∃ p q : State × (Nat → Bool), p.2 0 = true ∧ LeavesAlone 0 p.1 q.1 := by
  let connection : Connection := ⟨⟨"c"⟩, .postgres⟩
  let fresh : State × (Nat → Bool) :=
    (State.withPoolConfig 8, fun _ => false)
  have hfresh : (watched.restrict Undisturbed).Reachable fresh :=
    .init ⟨fresh_withPoolConfig 8, rfl⟩
  have hstarted := hfresh.step
    (undisturbed_step (.start 0 (.connect connection)) rfl trivial)
  have hconnecting := hstarted.step (undisturbed_step (.advance 0) rfl trivial)
  have hissued := hconnecting.step
    (undisturbed_step (.start 1 (.disconnect connection.id)) rfl trivial)
  have hovertaken := hissued.step (undisturbed_step (.advance 1) rfl (by
    intro k call hcall hconnects _
    by_cases hk : k = 1
    · subst hk
      obtain rfl := Option.some.inj hcall
      cases hconnects
    · by_cases hk' : k = 0
      · subst hk'
        obtain rfl := Option.some.inj hcall
        rfl
      · simp [State.goto, lockSection, State.write, hk, hk', fresh,
          State.withPoolConfig] at hcall))
  exact ⟨_, _, by decide, disconnect_wins hovertaken
    (undisturbed_step (.advance 0) rfl trivial) rfl (by decide)⟩

/-- An overtaken `connect` whose warm-up fails writes `Failed`. -/
theorem overtaken_connect_writes_failed :
    ¬ ∀ (p q : State × (Nat → Bool)) (a : Action) (i : Nat),
      watched.Reachable p → watched.step p a q → a.call? = some i →
        p.2 i = true → LeavesAlone i p.1 q.1 := by
  intro hclaim
  let connection : Connection := ⟨⟨"c"⟩, .postgres⟩
  let actions : List Action :=
    [.registerDriver "postgresql", .start 0 (.connect connection), .advance 0,
      .advance 0, .advance 0, .build 0 (.ok ()), .build 0 (.ok ()),
      .start 1 (.disconnect connection.id), .advance 1,
      .warmUp 0 (.error .closed)]
  let fresh : State × (Nat → Bool) :=
    (State.withPoolConfig 8, fun _ => false)
  let run := System.follow (System.watchNext next noteOvertaken) fresh actions
  have hsome : run.isSome = true := by decide
  obtain ⟨p, hp⟩ := Option.isSome_iff_exists.1 hsome
  have hrun : watched.Run _ actions p :=
    System.run_of_follow System.watch_step_of_watchNext hp
  have hreach : watched.Reachable p :=
    ⟨fresh, _, ⟨fresh_withPoolConfig 8, rfl⟩, hrun⟩
  have hover : run.map (fun p => p.2 0) = some true := by decide
  have hentry : run.map (fun p => p.1.entries connection.id)
      = some (some ⟨.disconnected, none⟩) := by decide
  have hlast : (run.bind fun p => next p.1 (.advance 0)).map
      (fun t => t.entries connection.id) = some (some ⟨.failed, none⟩) := by
    decide
  rw [hp] at hover hentry hlast
  obtain ⟨t, ht, hfailed⟩ := Option.map_eq_some_iff.1 hlast
  have halone := hclaim p (t, _) (.advance 0) 0 hreach ⟨ht, rfl⟩ rfl
    (by simpa using hover)
  have hdisconnected : p.1.entries connection.id
      = some ⟨.disconnected, none⟩ := by simpa using hentry
  rw [← halone.1, hfailed] at hdisconnected
  cases hdisconnected

end Tempr.Services.ConnectionService
