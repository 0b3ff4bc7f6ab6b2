import Mathlib.Data.List.Basic
import Mathlib.Data.List.Nodup
import Mathlib.Data.List.Pairwise
import Tempr.Support.Transition

/-!
# The event bus

Services tell each other of their changes by publishing events.  `publish` takes
a snapshot of the handlers that want the event and calls them one by one, on
the publisher's own thread.  A handler is arbitrary code: while it is called it
may publish further events, subscribe handlers and drop subscriptions, so that
calls of `publish` are nested.

A run of the thread interleaves the steps of that code with the steps of the
loops in `publish`.  The calls that the loops have still to make are known at
every state, and the steps of the code only insert into them.
-/

namespace Tempr.Events

open Tempr.Support

inductive AppEventKind
  | workspaceOpened
  | workspaceClosed
  | connectionRequested
  | connectionStateChanged
  | connectionClosed
  | queryStarted
  | rowsReceived
  | queryFinished
  | schemaRefreshed
  | schemaRefreshFailed
  | bufferChanged
  | bufferSaved
  | diagnosticsReady
  | commandExecuted
  | pluginEvent
  deriving DecidableEq, Repr

/-- An event, of which the bus reads the kind and the handlers the rest. -/
structure AppEvent where
  kind : AppEventKind
  deriving DecidableEq, Repr

inductive EventFilter
  | all
  | anyOf (kinds : List AppEventKind)
  | not (kind : AppEventKind)
  deriving DecidableEq, Repr

def EventFilter.matchesEvent (event : AppEvent) : EventFilter → Bool
  | all => true
  | anyOf kinds => kinds.contains event.kind
  | not kind => event.kind != kind

/-- A subscription, whose id names its handler too. -/
structure SubscriberEntry where
  id : ℕ
  filter : EventFilter
  deriving DecidableEq, Repr

structure EventBus where
  subscribers : List SubscriberEntry
  nextId : ℕ
  deriving DecidableEq, Repr

namespace EventBus

def new : EventBus := ⟨[], 0⟩

/-- The snapshot that `publish` takes. -/
def handlersOf (bus : EventBus) (event : AppEvent) : List ℕ :=
  (bus.subscribers.filter fun entry => entry.filter.matchesEvent event).map
    SubscriberEntry.id

/-- The ids of the subscriptions, which `Subscription::drop` compares. -/
def ids (bus : EventBus) : List ℕ :=
  bus.subscribers.map SubscriberEntry.id

def subscribe (bus : EventBus) (filter : EventFilter) : EventBus :=
  ⟨bus.subscribers ++ [⟨bus.nextId, filter⟩], bus.nextId + 1⟩

/-- What dropping the `Subscription` with the id does. -/
def unsubscribe (bus : EventBus) (id : ℕ) : EventBus :=
  { bus with subscribers := bus.subscribers.filter fun entry => entry.id != id }

theorem handlersOf_sublist (bus : EventBus) (event : AppEvent) :
    (bus.handlersOf event).Sublist bus.ids :=
  List.filter_sublist.map _

@[simp] theorem ids_subscribe (bus : EventBus) (filter : EventFilter) :
    (bus.subscribe filter).ids = bus.ids ++ [bus.nextId] := by
  simp [subscribe, ids]

theorem ids_unsubscribe (bus : EventBus) (id : ℕ) :
    (bus.unsubscribe id).ids = bus.ids.filter (· != id) := by
  rw [unsubscribe, ids, ids, List.filter_map]
  rfl

/-! ## The thread -/

/-- A call of `publish` on the stack: the number of the call, the handlers of
its snapshot that it has not called, and whether it is calling one. -/
structure Delivery where
  number : ℕ
  handlers : List ℕ
  calling : Bool
  deriving DecidableEq, Repr

/-- What an observer notes. -/
inductive Note
  /-- The handler was called with the event of the publish call `number`. -/
  | called (id number : ℕ)
  /-- The subscription was dropped. -/
  | dropped (id : ℕ)
  deriving DecidableEq, Repr

/-- The thread, with its calls of `publish` innermost first.  The number of
calls so far and the log are the observer's. -/
structure State where
  bus : EventBus
  deliveries : List Delivery
  published : ℕ
  log : List Note
  deriving DecidableEq, Repr

def State.fresh : State := ⟨new, [], 0, []⟩

/-- Is the thread in a handler, or outside of all calls of `publish`? -/
def State.inCode (s : State) : Bool :=
  match s.deliveries with
  | [] => true
  | delivery :: _ => delivery.calling

inductive Action
  | publish (event : AppEvent)
  | subscribe (filter : EventFilter)
  | drop (id : ℕ)
  /-- The innermost `publish` calls its next handler. -/
  | call
  /-- The handler returns. -/
  | handled
  /-- The innermost `publish` has no handler left and returns. -/
  | published
  deriving DecidableEq, Repr

/-- The steps.  A subscription is dropped once, while the bus has its entry. -/
def next (s : State) : Action → Option State
  | .publish event =>
      if s.inCode then
        some { s with
          deliveries := ⟨s.published, s.bus.handlersOf event, false⟩ ::
            s.deliveries
          published := s.published + 1 }
      else none
  | .subscribe filter =>
      if s.inCode then some { s with bus := s.bus.subscribe filter } else none
  | .drop id =>
      if s.inCode ∧ id ∈ s.bus.ids then
        some { s with
          bus := s.bus.unsubscribe id
          log := s.log ++ [.dropped id] }
      else none
  | .call =>
      match s.deliveries with
      | ⟨number, id :: handlers, false⟩ :: outer =>
          some { s with
            deliveries := ⟨number, handlers, true⟩ :: outer
            log := s.log ++ [.called id number] }
      | _ => none
  | .handled =>
      match s.deliveries with
      | ⟨number, handlers, true⟩ :: outer =>
          some { s with deliveries := ⟨number, handlers, false⟩ :: outer }
      | _ => none
  | .published =>
      match s.deliveries with
      | ⟨_, [], false⟩ :: outer => some { s with deliveries := outer }
      | _ => none

def system : System State Action := System.ofNext (· = .fresh) next

/-! ## Orderly observation -/

/-- The number of the publish call whose event the handler was called with. -/
def Note.heardBy (id : ℕ) : Note → Option ℕ
  | called id' number => if id' = id then some number else none
  | dropped _ => none

/-- The publish calls whose events the handler was called with, in order. -/
def State.observed (s : State) (id : ℕ) : List ℕ :=
  s.log.filterMap (Note.heardBy id)

/-- Every subscriber has observed its events in the order in which they were
published, and no handler was called once its subscription was dropped. -/
structure State.Orderly (s : State) : Prop where
  inOrder : ∀ id, (s.observed id).Pairwise (· < ·)
  silentOnceDropped : ∀ id, s.log.Pairwise fun note later =>
    note = .dropped id → ∀ number, later ≠ .called id number

/-- No code publishes an event for a handler that an open `publish` has still to
call, or drops the subscription of such a handler. -/
def State.Careful (s : State) : Action → Prop
  | .publish event => ∀ delivery ∈ s.deliveries,
      ∀ id ∈ delivery.handlers, id ∉ s.bus.handlersOf event
  | .drop id => ∀ delivery ∈ s.deliveries, id ∉ delivery.handlers
  | _ => True

instance (s : State) (a : Action) : Decidable (s.Careful a) := by
  cases a <;> unfold State.Careful <;> infer_instance

/-! ## The calls to come -/

def Delivery.toCome (delivery : Delivery) : List Note :=
  delivery.handlers.map (Note.called · delivery.number)

/-- The calls that the open calls of `publish` have still to make. -/
def State.toCome (s : State) : List Note :=
  s.deliveries.flatMap Delivery.toCome

/-- The log, and what it grows to when all the handlers just return. -/
def State.schedule (s : State) : List Note :=
  s.log ++ s.toCome

/-- A note may stand before another in an orderly log. -/
def Note.MayPrecede : Note → Note → Prop
  | called id number, called id' number' => id = id' → number < number'
  | dropped id, called id' _ => id ≠ id'
  | _, dropped _ => True

theorem State.orderly_iff (s : State) :
    s.Orderly ↔ s.log.Pairwise Note.MayPrecede := by
  constructor
  · intro h
    rw [List.pairwise_iff_forall_sublist]
    intro note later hsub
    cases later with
    | dropped id => cases note <;> trivial
    | called id number =>
        cases note with
        | dropped id' =>
            rintro rfl
            exact (List.pairwise_iff_forall_sublist.1 (h.silentOnceDropped id')
              hsub) rfl number rfl
        | called id' number' =>
            rintro rfl
            have hpair := List.pairwise_iff_forall_sublist.1
              (List.pairwise_filterMap.1 (h.inOrder id')) hsub
            exact hpair number' (if_pos rfl) number (if_pos rfl)
  · intro h
    constructor
    · intro id
      refine List.pairwise_filterMap.2 (h.imp ?_)
      rintro (⟨id', n⟩ | _) (⟨id'', m⟩ | _) hprecede n' hn m' hm
      · simp only [Note.heardBy, Option.ite_none_right_eq_some,
          Option.some.injEq] at hn hm
        obtain ⟨rfl, rfl⟩ := hn
        obtain ⟨rfl, rfl⟩ := hm
        exact hprecede rfl
      all_goals simp [Note.heardBy] at hn hm
    · intro id
      refine h.imp ?_
      rintro note later hprecede rfl number rfl
      exact hprecede rfl

/-! ## Steps -/

/-- What a step inserts before the calls to come. -/
def State.inserted (s : State) : Action → List Note
  | .publish event => (s.bus.handlersOf event).map (Note.called · s.published)
  | .drop id => [.dropped id]
  | _ => []

/-- The loops make the calls to come, the code inserts notes before them. -/
theorem next_schedule {s t : State} {a : Action} (h : next s a = some t) :
    t.schedule = s.log ++ (s.inserted a ++ s.toCome) := by
  cases a with
  | publish event =>
      simp only [next, Option.ite_none_right_eq_some, Option.some.injEq] at h
      obtain ⟨-, rfl⟩ := h
      rfl
  | subscribe filter =>
      simp only [next, Option.ite_none_right_eq_some, Option.some.injEq] at h
      obtain ⟨-, rfl⟩ := h
      rfl
  | drop id =>
      simp only [next, Option.ite_none_right_eq_some, Option.some.injEq] at h
      obtain ⟨-, rfl⟩ := h
      simp [State.schedule, State.toCome, State.inserted]
  | call =>
      simp only [next] at h
      split at h
      · obtain rfl := Option.some.inj h
        simp [State.schedule, State.toCome, State.inserted, Delivery.toCome, *]
      · cases h
  | handled =>
      simp only [next] at h
      split at h
      · obtain rfl := Option.some.inj h
        simp [State.schedule, State.toCome, State.inserted, Delivery.toCome, *]
      · cases h
  | published =>
      simp only [next] at h
      split at h
      · obtain rfl := Option.some.inj h
        simp [State.schedule, State.toCome, State.inserted, Delivery.toCome, *]
      · cases h

/-- Ids and numbers are given once. -/
structure State.Numbered (s : State) : Prop where
  nodup : (s.bus.ids).Nodup
  below : ∀ id ∈ s.bus.ids, id < s.bus.nextId
  dropped : ∀ id, .dropped id ∈ s.log → id < s.bus.nextId ∧
    id ∉ s.bus.ids
  called : ∀ id number, .called id number ∈ s.schedule → number < s.published

theorem numbered_fresh : State.fresh.Numbered := by
  constructor <;> simp [State.fresh, State.schedule, State.toCome, new, ids]

/-- A step that leaves the bus and makes no note. -/
theorem State.Numbered.of_eq {s t : State} (h : s.Numbered)
    (hbus : t.bus = s.bus) (hpublished : s.published ≤ t.published)
    (hdropped : ∀ id, .dropped id ∈ t.log → .dropped id ∈ s.log)
    (hcalled : ∀ id number, .called id number ∈ t.schedule →
      .called id number ∈ s.schedule ∨ number < t.published) :
    t.Numbered := by
  refine ⟨hbus ▸ h.nodup, hbus ▸ h.below, ?_, ?_⟩
  · intro id hid
    rw [hbus]
    exact h.dropped id (hdropped id hid)
  · intro id number hmem
    rcases hcalled id number hmem with hmem | hlt
    · exact Nat.lt_of_lt_of_le (h.called id number hmem) hpublished
    · exact hlt

theorem State.Numbered.subscribe {s : State} (h : s.Numbered)
    (filter : EventFilter) :
    State.Numbered { s with bus := s.bus.subscribe filter } := by
  refine ⟨?_, ?_, ?_, h.called⟩
  · change (s.bus.subscribe filter).ids.Nodup
    rw [ids_subscribe, List.nodup_append]
    refine ⟨h.nodup, List.nodup_singleton _, ?_⟩
    rintro id hid _ hnew rfl
    obtain rfl := List.mem_singleton.1 hnew
    exact Nat.lt_irrefl _ (h.below _ hid)
  · change ∀ id ∈ (s.bus.subscribe filter).ids, id < s.bus.nextId + 1
    intro id hid
    rw [ids_subscribe, List.mem_append, List.mem_singleton] at hid
    rcases hid with hid | rfl
    · exact Nat.lt_succ_of_lt (h.below id hid)
    · exact Nat.lt_succ_self _
  · intro id hid
    obtain ⟨hbelow, hnone⟩ := h.dropped id hid
    refine ⟨Nat.lt_succ_of_lt hbelow, ?_⟩
    change id ∉ (s.bus.subscribe filter).ids
    rw [ids_subscribe, List.mem_append, List.mem_singleton]
    rintro (hold | rfl)
    · exact hnone hold
    · exact Nat.lt_irrefl _ hbelow

theorem State.Numbered.unsubscribe {s : State} (h : s.Numbered) {id : ℕ}
    (hid : id ∈ s.bus.ids) :
    State.Numbered { s with
      bus := s.bus.unsubscribe id
      log := s.log ++ [.dropped id] } := by
  refine ⟨?_, ?_, ?_, ?_⟩
  · change (s.bus.unsubscribe id).ids.Nodup
    rw [ids_unsubscribe]
    exact h.nodup.filter _
  · change ∀ id' ∈ (s.bus.unsubscribe id).ids, id' < s.bus.nextId
    intro id' hid'
    rw [ids_unsubscribe] at hid'
    exact h.below id' (List.mem_of_mem_filter hid')
  · intro id' hid'
    change id' < s.bus.nextId ∧ id' ∉ (s.bus.unsubscribe id).ids
    rw [ids_unsubscribe, List.mem_filter]
    rcases List.mem_append.1 hid' with hold | hnew
    · obtain ⟨hbelow, hnone⟩ := h.dropped id' hold
      exact ⟨hbelow, fun hmem => hnone hmem.1⟩
    · obtain rfl := Note.dropped.inj (List.mem_singleton.1 hnew)
      exact ⟨h.below _ hid, by simp⟩
  · intro id' number hmem
    refine h.called id' number ?_
    simpa [State.schedule, State.toCome] using hmem

theorem State.Numbered.next {s t : State} {a : Action} (h : s.Numbered)
    (hnext : next s a = some t) : t.Numbered := by
  have hschedule := next_schedule hnext
  cases a with
  | publish event =>
      simp only [EventBus.next, Option.ite_none_right_eq_some,
        Option.some.injEq] at hnext
      obtain ⟨-, rfl⟩ := hnext
      refine h.of_eq rfl (Nat.le_succ _) (fun _ => id) ?_
      intro id number hmem
      rw [hschedule, State.inserted, List.mem_append, List.mem_append] at hmem
      rcases hmem with hlog | hnew | hcome
      · exact .inl (List.mem_append_left _ hlog)
      · obtain ⟨_, -, heq⟩ := List.mem_map.1 hnew
        obtain ⟨-, rfl⟩ := Note.called.inj heq
        exact .inr (Nat.lt_succ_self _)
      · exact .inl (List.mem_append_right _ hcome)
  | subscribe filter =>
      simp only [EventBus.next, Option.ite_none_right_eq_some,
        Option.some.injEq] at hnext
      obtain ⟨-, rfl⟩ := hnext
      exact h.subscribe filter
  | drop id =>
      simp only [EventBus.next, Option.ite_none_right_eq_some,
        Option.some.injEq] at hnext
      obtain ⟨⟨-, hid⟩, rfl⟩ := hnext
      exact h.unsubscribe hid
  | call | handled | published =>
      simp only [EventBus.next] at hnext
      split at hnext
      · obtain rfl := Option.some.inj hnext
        refine h.of_eq rfl (Nat.le_refl _) (by simp) ?_
        intro id number hmem
        rw [hschedule] at hmem
        exact .inl hmem
      · cases hnext

theorem numbered_of_reachable {s : State} (h : system.Reachable s) :
    s.Numbered := by
  refine h.invariant ?_ fun _ _ _ hnext hnumbered => hnumbered.next hnext
  rintro s rfl
  exact numbered_fresh

/-! ## What a step inserts -/

theorem pairwise_insert_iff {α : Type*} {R : α → α → Prop}
    {before inserted after : List α} :
    (before ++ (inserted ++ after)).Pairwise R ↔
      (before ++ after).Pairwise R ∧ inserted.Pairwise R ∧
        (∀ x ∈ before, ∀ y ∈ inserted, R x y) ∧
        ∀ x ∈ inserted, ∀ y ∈ after, R x y := by
  simp only [List.pairwise_append, List.mem_append]
  constructor
  · rintro ⟨hbefore, ⟨hinserted, hafter, hmiddle⟩, hrest⟩
    exact ⟨⟨hbefore, hafter, fun x hx y hy => hrest x hx y (.inr hy)⟩,
      hinserted, fun x hx y hy => hrest x hx y (.inl hy), hmiddle⟩
  · rintro ⟨⟨hbefore, hafter, houter⟩, hinserted, hfirst, hmiddle⟩
    refine ⟨hbefore, ⟨hinserted, hafter, hmiddle⟩, ?_⟩
    rintro x hx y (hy | hy)
    · exact hfirst x hx y hy
    · exact houter x hx y hy

theorem mem_toCome_iff {s : State} {note : Note} :
    note ∈ s.toCome ↔ ∃ delivery ∈ s.deliveries, ∃ id ∈ delivery.handlers,
      .called id delivery.number = note := by
  simp only [State.toCome, Delivery.toCome, List.mem_flatMap, List.mem_map]

namespace State.Numbered

variable {s : State} (h : s.Numbered) (a : Action)

include h

theorem pairwise_inserted : (s.inserted a).Pairwise Note.MayPrecede := by
  cases a with
  | publish event =>
      refine List.pairwise_map.2 ?_
      have hnodup := h.nodup.sublist (s.bus.handlersOf_sublist event)
      exact hnodup.imp fun hne heq => absurd heq hne
  | drop id => exact List.pairwise_singleton _ _
  | subscribe | call | handled | published => exact .nil

theorem log_precedes_inserted {note later : Note} (hnote : note ∈ s.log)
    (hlater : later ∈ s.inserted a) : note.MayPrecede later := by
  cases a with
  | publish event =>
      obtain ⟨id, hid, rfl⟩ := List.mem_map.1 hlater
      cases note with
      | called id' number =>
          exact fun _ => h.called id' number (List.mem_append_left _ hnote)
      | dropped id' =>
          -- the snapshot is of the entries of the bus
          rintro rfl
          exact (h.dropped id' hnote).2
            ((s.bus.handlersOf_sublist event).mem hid)
  | drop id =>
      obtain rfl := List.mem_singleton.1 hlater
      cases note <;> trivial
  | subscribe | call | handled | published => cases hlater

theorem inserted_precedes_iff :
    (∀ note ∈ s.inserted a, ∀ later ∈ s.toCome, note.MayPrecede later) ↔
      s.Careful a := by
  cases a with
  | publish event =>
      constructor
      · intro hprecede delivery hdelivery id hid hmatch
        have hcome : .called id delivery.number ∈ s.toCome :=
          mem_toCome_iff.2 ⟨delivery, hdelivery, id, hid, rfl⟩
        have hlt := hprecede _ (List.mem_map_of_mem hmatch) _ hcome rfl
        -- the event that is being delivered was published before
        have hearlier := h.called id _ (List.mem_append_right _ hcome)
        exact Nat.lt_asymm hlt hearlier
      · intro hcareful note hnote later hlater
        obtain ⟨id, hid, rfl⟩ := List.mem_map.1 hnote
        obtain ⟨delivery, hdelivery, id', hid', rfl⟩ := mem_toCome_iff.1 hlater
        rintro rfl
        exact absurd hid (hcareful delivery hdelivery _ hid')
  | drop id =>
      constructor
      · intro hprecede delivery hdelivery hid
        exact hprecede _ (List.mem_singleton_self _) _
          (mem_toCome_iff.2 ⟨delivery, hdelivery, id, hid, rfl⟩) rfl
      · intro hcareful note hnote later hlater
        obtain rfl := List.mem_singleton.1 hnote
        obtain ⟨delivery, hdelivery, id', hid', rfl⟩ := mem_toCome_iff.1 hlater
        rintro rfl
        exact hcareful delivery hdelivery hid'
  | subscribe | call | handled | published =>
      exact ⟨fun _ => trivial, fun _ _ hnote => absurd hnote List.not_mem_nil⟩

end State.Numbered

/-- A step keeps the schedule in order just when it is careful. -/
theorem pairwise_schedule_iff {s t : State} {a : Action} (h : s.Numbered)
    (hnext : next s a = some t) :
    t.schedule.Pairwise Note.MayPrecede ↔
      s.schedule.Pairwise Note.MayPrecede ∧ s.Careful a := by
  rw [next_schedule hnext, pairwise_insert_iff, h.inserted_precedes_iff a]
  constructor
  · rintro ⟨hschedule, -, -, hcareful⟩
    exact ⟨hschedule, hcareful⟩
  · rintro ⟨hschedule, hcareful⟩
    exact ⟨hschedule, h.pairwise_inserted a,
      fun _ hnote _ hlater => h.log_precedes_inserted a hnote hlater, hcareful⟩

/-! ## Runs -/

theorem pairwise_of_careful {s t : State} {as : List Action}
    (hs : system.Reachable s) (hpairwise : s.schedule.Pairwise Note.MayPrecede)
    (h : (system.restrict State.Careful).Run s as t) :
    t.schedule.Pairwise Note.MayPrecede := by
  induction h with
  | nil => exact hpairwise
  | snoc hrun hstep ih =>
      have hnumbered := numbered_of_reachable (hs.append hrun.of_restrict)
      exact (pairwise_schedule_iff hnumbered hstep.1).2 ⟨ih, hstep.2⟩

theorem careful_of_pairwise {s t : State} {as : List Action}
    (hs : system.Reachable s) (h : system.Run s as t)
    (hpairwise : t.schedule.Pairwise Note.MayPrecede) :
    (system.restrict State.Careful).Run s as t := by
  induction h with
  | nil => exact .nil _
  | snoc hrun hstep ih =>
      have hnumbered := numbered_of_reachable (hs.append hrun)
      obtain ⟨hbefore, hcareful⟩ :=
        (pairwise_schedule_iff hnumbered hstep).1 hpairwise
      exact (ih hbefore).snoc ⟨hstep, hcareful⟩

/-- Whatever the handlers do, the subscribers observe their events in order of
publication, and nothing after being dropped, as long as the code is careful.
Once the thread is outside of all calls of `publish`, they have done so only if
it was. -/
theorem orderly_iff_careful {t : State} {as : List Action}
    (h : system.Run .fresh as t) :
    ((system.restrict State.Careful).Run .fresh as t → t.Orderly) ∧
      (t.deliveries = [] → t.Orderly →
        (system.restrict State.Careful).Run .fresh as t) := by
  have hfresh : system.Reachable .fresh := .init rfl
  constructor
  · intro hcareful
    have hschedule := pairwise_of_careful hfresh .nil hcareful
    exact t.orderly_iff.2 (hschedule.sublist (List.sublist_append_left _ _))
  · intro hdone horderly
    refine careful_of_pairwise hfresh h ?_
    rw [State.schedule, State.toCome, hdone, List.flatMap_nil,
      List.append_nil]
    exact t.orderly_iff.1 horderly

/-- The first of two handlers publishes an event while it is called, which
reaches the second one before the event being delivered. -/
def publishFromFirst : List Action :=
  [.subscribe .all, .subscribe .all, .publish ⟨.queryStarted⟩, .call,
    .publish ⟨.queryFinished⟩, .call, .handled, .call, .handled, .published,
    .handled, .call, .handled, .published]

/-- The first of two handlers drops the subscription of the second one. -/
def dropFromFirst : List Action :=
  [.subscribe .all, .subscribe .all, .publish ⟨.queryStarted⟩, .call, .drop 1,
    .handled, .call, .handled, .published]

theorem handlers_break_order :
    (∃ t, system.Run .fresh publishFromFirst t ∧ t.deliveries = [] ∧
      ¬(t.observed 1).Pairwise (· < ·)) ∧
    ∃ t, system.Run .fresh dropFromFirst t ∧ t.deliveries = [] ∧
      ¬∀ id, t.log.Pairwise fun note later =>
        note = .dropped id → ∀ number, later ≠ .called id number := by
  constructor
  · refine ⟨⟨⟨[⟨0, .all⟩, ⟨1, .all⟩], 2⟩, [], 2, [.called 0 0, .called 0 1,
      .called 1 1, .called 1 0]⟩, System.run_of_follow (fun _ _ _ => id) ?_,
      rfl, ?_⟩
    · decide
    · decide
  · refine ⟨⟨⟨[⟨0, .all⟩], 2⟩, [], 1, [.called 0 0, .dropped 1, .called 1 0]⟩,
      System.run_of_follow (fun _ _ _ => id) ?_, rfl, ?_⟩
    · decide
    · intro hsilent
      have hpair := List.pairwise_iff_forall_sublist.1 (hsilent 1)
        (List.sublist_append_right [Note.called 0 0] _)
      exact hpair rfl 0 rfl

/-- The last of two handlers publishes an event, and drops a subscription. -/
def publishFromLast : List Action :=
  [.subscribe .all, .subscribe .all, .publish ⟨.queryStarted⟩, .call,
    .handled, .call, .publish ⟨.queryFinished⟩, .call, .handled, .call,
    .handled, .published, .drop 0, .handled, .published]

theorem orderly_iff_careful_last :
    ∃ t, t.log = [.called 0 0, .called 1 0, .called 0 1, .called 1 1,
        .dropped 0] ∧
      t.Orderly ∧
      (system.restrict State.Careful).Run .fresh publishFromLast t := by
  let t : State := ⟨⟨[⟨1, .all⟩], 2⟩, [], 2, [.called 0 0, .called 1 0,
    .called 0 1, .called 1 1, .dropped 0]⟩
  have hrun : system.Run .fresh publishFromLast t :=
    System.run_of_follow (fun _ _ _ => id) (by decide)
  have hguarded : ∀ s a u,
      System.guarded next (fun s a => decide (s.Careful a)) s a = some u →
        (system.restrict State.Careful).step s a u := by
    intro s a u h
    have hstep : (system.restrict fun s a =>
        decide (State.Careful s a) = true).step s a u :=
      System.restrict_step_of_guarded s a u h
    exact ⟨hstep.1, of_decide_eq_true hstep.2⟩
  have hcareful : (system.restrict State.Careful).Run .fresh publishFromLast
      t := System.run_of_follow hguarded (by decide)
  have horderly := (orderly_iff_careful hrun).1 hcareful
  exact ⟨t, rfl, horderly, (orderly_iff_careful hrun).2 rfl horderly⟩

end EventBus

end Tempr.Events
