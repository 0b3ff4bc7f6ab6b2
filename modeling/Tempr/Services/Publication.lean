import Tempr.Services.Disconnect

/-!
# What the last event says

A `transition` writes the state of a connection under the lock and publishes it
after the lock has been released, so two transitions can publish in the opposite
order of their writes. As long as no transition publishes after the one that
wrote the entry's state has published, the last event tells the true state.
-/

namespace Tempr.Services.ConnectionService

open Tempr.Support

/-! ## Transitions in progress -/

/-- The state that an event tells of a connection. -/
def publishedState (id : ConnectionId) : AppEvent → Option ConnectionState
  | .connectionStateChanged id' state => if id' = id then some state else none
  | _ => none

/-- The state in the most recent event of a connection. -/
def lastPublished (id : ConnectionId) (events : List AppEvent) :
    Option ConnectionState :=
  (events.filterMap (publishedState id)).getLast?

/-- The state that has been written and is still to be published. -/
def Phase.unpublished : Phase → Option ConnectionState
  | closing _ state _ => some state
  | publishing state _ => some state
  | _ => none

/-- No transition of `id` is between its lock section and its publication. -/
def State.Quiet (s : State) (id : ConnectionId) : Prop :=
  ∀ i call, s.calls i = some call → call.request.id = id →
    call.phase.unpublished = none

/-- The state that is stored for a connection. -/
def State.stored (s : State) (id : ConnectionId) : Option ConnectionState :=
  (s.entries id).map ConnEntry.state

/-- The call `k` is still to publish the stored state of `id`. -/
def State.OwesStored (s : State) (id : ConnectionId) (k : Nat) : Prop :=
  ∃ call state, s.calls k = some call ∧ call.request.id = id ∧
    call.phase.unpublished = some state ∧ s.stored id = some state

/-- The stored state of `id` is told by the last event, or will be told. -/
def State.Announced (s : State) (id : ConnectionId) : Prop :=
  (∃ k, s.OwesStored id k) ∨ lastPublished id s.published = s.stored id

/-- A step publishes the stored state, unless another call is still to do so. -/
def PublishesInOrder (s : State) : Action → Prop
  | .advance i =>
      match s.calls i with
      | some ⟨request, .publishing state _⟩ =>
          s.stored request.id = some state ∨
            ∃ k, k ≠ i ∧ s.OwesStored request.id k
      | _ => True
  | _ => True

theorem State.Announced.of_quiet {s : State} {id : ConnectionId}
    (h : s.Announced id) (hquiet : s.Quiet id) :
    lastPublished id s.published = s.stored id := by
  rcases h with ⟨k, call, state, hcall, hid, hunpublished, -⟩ | h
  · rw [hquiet k call hcall hid] at hunpublished
    cases hunpublished
  · exact h

theorem lastPublished_publish (s : State) (id : ConnectionId)
    (id' : ConnectionId) (state : ConnectionState) :
    lastPublished id (s.publish (.connectionStateChanged id' state)).published =
      if id' = id then some state else lastPublished id s.published := by
  unfold lastPublished State.publish
  split
  · rename_i hid
    simp [publishedState, hid]
  · rename_i hid
    simp [publishedState, hid]

/-! ## Steps -/

section Steps

variable {s t : State} {i : Nat} {call : Call} {id : ConnectionId}

theorem State.OwesStored.goto {k : Nat} {phase : Phase}
    (h : s.OwesStored id k) (hk : k ≠ i) :
    (s.goto i call phase).OwesStored id k := by
  obtain ⟨other, state, hother, hid, hunpublished, hstored⟩ := h
  exact ⟨other, state, (goto_calls_of_ne s call phase hk).trans hother, hid,
    hunpublished, hstored⟩

/-- A step of a call outside its transitions. -/
theorem State.Announced.goto {phase : Phase} (h : s.Announced id)
    (hcall : s.calls i = some call) (hphase : call.phase.unpublished = none) :
    (s.goto i call phase).Announced id := by
  rcases h with ⟨k, howes⟩ | h
  · refine .inl ⟨k, howes.goto ?_⟩
    rintro rfl
    obtain ⟨other, state, hother, -, hunpublished, -⟩ := howes
    obtain rfl := Option.some.inj (hcall.symm.trans hother)
    rw [hphase] at hunpublished
    cases hunpublished
  · exact .inr h

/-- The lock section: the call is to publish what it writes. -/
theorem State.Announced.lockSection {state : ConnectionState}
    {pools : Option PoolSet} {after : After} (h : s.Announced id)
    (hcall : s.calls i = some call) (hphase : call.phase.unpublished = none) :
    (lockSection s i call state pools after).Announced id := by
  unfold ConnectionService.lockSection
  by_cases hid : call.request.id = id
  · subst hid
    refine .inl ⟨i, _, state, goto_calls_self .., rfl, ?_, ?_⟩
    · cases s.pools call.request.id <;> rfl
    · simp [State.stored, State.write]
  · have hwrite : (s.write call.request.id ⟨state, pools⟩).Announced id := by
      have hstored : (s.write call.request.id ⟨state, pools⟩).stored id =
          s.stored id := by
        simp [State.stored, State.write, Function.update_of_ne (Ne.symm hid)]
      rcases h with ⟨k, other, written, hother, hid', hunpublished, hs⟩ | h
      · exact .inl ⟨k, other, written, hother, hid', hunpublished,
          hstored.trans hs⟩
      · exact .inr (h.trans hstored.symm)
    exact hwrite.goto hcall hphase

/-- The displaced pools are closed between the two halves of a transition. -/
theorem State.Announced.close {displaced : PoolSet} {state : ConnectionState}
    {after : After} (h : s.Announced id) (hcall : s.calls i = some call)
    (hphase : call.phase = .closing displaced state after) :
    ((s.close displaced).goto i call (.publishing state after)).Announced id := by
  rcases h with ⟨k, howes⟩ | h
  · by_cases hk : k = i
    · subst hk
      obtain ⟨other, written, hother, hid, hunpublished, hstored⟩ := howes
      obtain rfl := Option.some.inj (hcall.symm.trans hother)
      rw [hphase] at hunpublished
      exact .inl ⟨k, _, written, goto_calls_self .., hid, hunpublished, hstored⟩
    · exact .inl ⟨k, State.OwesStored.goto (s := s.close displaced) howes hk⟩
  · exact .inr h

/-- A publication leaves its connection announced exactly if it is in order. -/
theorem announced_publish_iff {state : ConnectionState} {after : After}
    (h : s.Announced call.request.id) (hcall : s.calls i = some call)
    (hphase : call.phase = .publishing state after) :
    ((s.publish (.connectionStateChanged call.request.id state)).goto i call
        (resume after)).Announced call.request.id ↔
      PublishesInOrder s (.advance i) := by
  obtain ⟨request, phase⟩ := call
  obtain rfl : phase = _ := hphase
  have hlast := lastPublished_publish s request.id request.id state
  rw [if_pos rfl] at hlast
  simp only [PublishesInOrder, hcall]
  constructor
  · rintro (⟨k, other, written, hother, hid, hunpublished, hstored⟩ | hcurrent)
    · by_cases hk : k = i
      · subst hk
        rw [goto_calls_self] at hother
        obtain rfl := Option.some.inj hother
        cases after <;> cases hunpublished
      · rw [goto_calls_of_ne _ _ _ hk] at hother
        exact .inr ⟨k, hk, other, written, hother, hid, hunpublished, hstored⟩
    · exact .inl (hcurrent.symm.trans hlast)
  · rintro (hstored | ⟨k, hk, howes⟩)
    · exact .inr (hlast.trans hstored.symm)
    · exact .inl ⟨k, State.OwesStored.goto
        (s := s.publish (.connectionStateChanged request.id state)) howes hk⟩

/-- A publication tells nothing of another connection. -/
theorem State.Announced.publish_other {state : ConnectionState} {after : After}
    (h : s.Announced id) (hcall : s.calls i = some call)
    (hid : call.request.id ≠ id) :
    ((s.publish (.connectionStateChanged call.request.id state)).goto i call
        (resume after)).Announced id := by
  have hlast := lastPublished_publish s id call.request.id state
  rw [if_neg hid] at hlast
  rcases h with ⟨k, howes⟩ | h
  · refine .inl ⟨k, State.OwesStored.goto
      (s := s.publish (.connectionStateChanged call.request.id state)) howes ?_⟩
    rintro rfl
    obtain ⟨other, written, hother, hid', -, -⟩ := howes
    obtain rfl := Option.some.inj (hcall.symm.trans hother)
    exact hid hid'
  · exact .inr (hlast.trans h)

/-- A step in order keeps all connections announced. -/
theorem announced_step {a : Action} (h : next s a = some t)
    (hordered : PublishesInOrder s a) (hs : ∀ id, s.Announced id) :
    ∀ id, t.Announced id := by
  intro id
  rcases next_cases h with ⟨i, request, -, hnone, rfl⟩ | ⟨engine, -, rfl⟩ |
    ⟨i, call, hcall, -, hstep⟩
  · rcases hs id with ⟨k, howes⟩ | hlast
    · refine .inl ⟨k, howes.goto ?_⟩
      rintro rfl
      obtain ⟨other, -, hother, -⟩ := howes
      rw [hnone] at hother
      cases hother
    · exact .inr hlast
  · exact hs id
  · cases hstep with
    | locked hphase =>
        exact (hs id).lockSection hcall (by rw [hphase]; rfl)
    | closed hphase => exact (hs id).close hcall hphase
    | published hphase =>
        by_cases hid : call.request.id = id
        · subst hid
          exact (announced_publish_iff (hs _) hcall hphase).2 hordered
        · exact (hs id).publish_other hcall hid
    | found _ hphase _ => exact (hs id).goto hcall (by rw [hphase]; rfl)
    | missing _ hphase _ => exact (hs id).goto hcall (by rw [hphase]; rfl)
    | passed _ hphase _ => exact (hs id).goto hcall (by rw [hphase]; rfl)
    | beaten _ hphase _ => exact (hs id).goto hcall (by rw [hphase]; rfl)
    | @discarded pools hphase =>
        have hclosed : (s.close pools).Announced id := hs id
        exact hclosed.goto hcall (by rw [hphase]; rfl)
    | stuck _ hphase _ => exact (hs id).goto hcall (by rw [hphase]; rfl)
    | released _ hphase _ => exact (hs id).goto hcall (by rw [hphase]; rfl)
    | builtUser hphase => exact (hs id).goto hcall (by rw [hphase]; rfl)
    | builtMetadata hphase => exact (hs id).goto hcall (by rw [hphase]; rfl)
    | buildFailed hphase =>
        refine (hs id).goto hcall ?_
        rcases hphase with hphase | ⟨user, hphase⟩ <;> rw [hphase] <;> rfl
    | warmed hphase => exact (hs id).goto hcall (by rw [hphase]; rfl)
    | warmUpFailed hphase => exact (hs id).goto hcall (by rw [hphase]; rfl)
    | aborted hphase => exact (hs id).goto hcall (by rw [hphase]; rfl)

end Steps

/-! ## Runs -/

theorem announced_of_fresh {s : State} (h : Fresh s) (id : ConnectionId) :
    s.Announced id := by
  obtain ⟨hentries, -, -, hpublished⟩ := h
  exact .inr (by simp [lastPublished, State.stored, hentries, hpublished])

/-- If all publications are in order, the last event of a connection tells its
true state whenever no transition of it is in progress. -/
theorem last_published_is_stored {s : State} {id : ConnectionId}
    (h : (system.restrict PublishesInOrder).Reachable s) (hquiet : s.Quiet id) :
    lastPublished id s.published = s.stored id := by
  have hannounced : ∀ id, s.Announced id := by
    refine h.invariant (I := fun s => ∀ id, s.Announced id) ?_ ?_
    · intro s hfresh
      exact announced_of_fresh hfresh
    · intro s a t hstep hs
      exact announced_step hstep.1 hstep.2 hs
  exact (hannounced id).of_quiet hquiet

theorem ordered_step {s t : State} (a : Action) (h : next s a = some t)
    (hordered : PublishesInOrder s a) :
    (system.restrict PublishesInOrder).step s a t :=
  ⟨h, hordered⟩

/-- A `disconnect` alone. -/
theorem last_published_is_stored_disconnect :
    ∃ s : State, lastPublished ⟨"c"⟩ s.published = s.stored ⟨"c"⟩ ∧
      s.stored ⟨"c"⟩ = some .disconnected := by
  let fresh : State := State.withPoolConfig 8
  have hfresh : (system.restrict PublishesInOrder).Reachable fresh :=
    .init (fresh_withPoolConfig 8)
  have hissued := hfresh.step
    (ordered_step (.start 0 (.disconnect ⟨"c"⟩)) rfl trivial)
  have hwritten := hissued.step (ordered_step (.advance 0) rfl trivial)
  have hpublished := hwritten.step (ordered_step (.advance 0) rfl (.inl rfl))
  refine ⟨_, last_published_is_stored hpublished ?_, rfl⟩
  intro i call hcall _
  by_cases hi : i = 0
  · subst hi
    obtain rfl := Option.some.inj hcall
    rfl
  · simp [State.goto, lockSection, State.write, State.publish, hi, fresh,
      State.withPoolConfig] at hcall

/-- Steps of other calls leave a call alone. -/
theorem calls_of_follow {s t : State} {actions : List Action}
    (h : System.follow next s actions = some t) (i : Nat)
    (hi : ∀ a ∈ actions, a.call? ≠ some i) : t.calls i = s.calls i := by
  induction actions generalizing s with
  | nil => rw [Option.some.inj h]
  | cons a actions ih =>
      obtain ⟨u, hu, hrest⟩ := Option.bind_eq_some_iff.1 h
      have ha : a.call? ≠ some i := hi a (by simp)
      rw [ih hrest fun b hb => hi b (by simp [hb])]
      rcases next_cases hu with ⟨k, request, rfl, -, rfl⟩ | ⟨engine, -, rfl⟩ |
        ⟨k, call, -, hk, hstep⟩
      · exact goto_calls_of_ne _ _ _ fun heq => ha (by rw [heq]; rfl)
      · rfl
      · obtain ⟨phase, hcalls⟩ := hstep.calls
        rw [hcalls, Function.update_of_ne]
        rintro rfl
        exact ha hk

/-- A `connect` that publishes `Connecting` when a `disconnect` has already
written and published `Disconnected`. -/
theorem connecting_published_last :
    ¬ ∀ (s : State) (id : ConnectionId), system.Reachable s → s.Quiet id →
      lastPublished id s.published = s.stored id := by
  intro hclaim
  let connection : Connection := ⟨⟨"c"⟩, .postgres⟩
  let actions : List Action :=
    [.start 0 (.connect connection), .start 1 (.disconnect connection.id),
      .advance 0, .advance 1, .advance 1, .advance 0]
  let run := System.follow next (State.withPoolConfig 8) actions
  have hsome : run.isSome = true := by decide
  obtain ⟨s, hs⟩ := Option.isSome_iff_exists.1 hsome
  have hrun : system.Run (State.withPoolConfig 8) actions s :=
    System.run_of_follow (fun _ _ _ h => h) hs
  have hphases : run.map (fun s =>
      ((s.calls 0).bind fun call => call.phase.unpublished,
        (s.calls 1).bind fun call => call.phase.unpublished)) =
      some (none, none) := by decide
  have hread : run.map (fun s =>
      (lastPublished connection.id s.published, s.stored connection.id)) =
        some (some .connecting, some .disconnected) := by decide
  rw [hs] at hphases hread
  obtain ⟨hfirst, hsecond⟩ := Prod.mk.inj (Option.some.inj hphases)
  obtain ⟨hlast, hstored⟩ := Prod.mk.inj (Option.some.inj hread)
  have hquiet : s.Quiet connection.id := by
    intro i call hcall _
    by_cases hi : i = 0 ∨ i = 1
    · rcases hi with rfl | rfl
      · simpa [hcall] using hfirst
      · simpa [hcall] using hsecond
    · have hothers : ∀ a ∈ actions, a.call? ≠ some i := by
        simp [actions, Action.call?]
        omega
      have huntouched := calls_of_follow hs i hothers
      rw [huntouched] at hcall
      cases hcall
  have htrue := hclaim s connection.id
    ⟨_, _, fresh_withPoolConfig 8, hrun⟩ hquiet
  rw [hlast, hstored] at htrue
  cases htrue

end Tempr.Services.ConnectionService
