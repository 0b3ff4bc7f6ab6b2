import Tempr.Support.Transition
import Tempr.Services.Basic

/-!
# The connection service

`connect` and `disconnect` calls over any number of connections, as a system
whose steps are the lock sections, driver calls, pool closures and publications
of the calls. Any number of calls are in progress at once.
-/

namespace Tempr.Services

open Tempr.Support

/-! ## Pools and entries -/

inductive PoolKind
  | user
  | metadata
  deriving DecidableEq, Repr

/-- A driver pool, identified by the `connect` call that built it. -/
structure Pool where
  builder : Nat
  kind : PoolKind
  maxSize : Nat
  deriving DecidableEq, Repr

structure PoolSet where
  user : Pool
  metadata : Pool
  deriving DecidableEq, Repr

/-- The pools marked as closed once `pools` has been closed too. -/
def PoolSet.close (pools : PoolSet) (closed : Pool → Bool) : Pool → Bool :=
  Function.update (Function.update closed pools.user true) pools.metadata true

/-- The state of a connection and, when connected, its pools. -/
structure ConnEntry where
  state : ConnectionState
  pools : Option PoolSet
  deriving DecidableEq, Repr

structure Connection where
  id : ConnectionId
  driver : DriverKind
  deriving DecidableEq, Repr

/-- The lookup of `with_pool`: the pools to borrow from, or why there are none. -/
def selectPool (id : ConnectionId) (entry : Option ConnEntry) :
    Except ServiceError PoolSet :=
  let state := (entry.map ConnEntry.state).getD .disconnected
  if state ≠ .connected then
    .error (.notConnected id.text (stateName state))
  else
    match entry.bind ConnEntry.pools with
    | some pools => .ok pools
    | none => .error (.connectionNotFound id.text)

namespace ConnectionService

/-! ## Calls -/

inductive Request
  | connect (connection : Connection)
  | disconnect (id : ConnectionId)
  deriving DecidableEq, Repr

def Request.id : Request → ConnectionId
  | connect connection => connection.id
  | disconnect id => id

/-- How a call ended: with what it returned, or dropped before it returned. -/
inductive Ending
  | returned (result : Except ServiceError Unit)
  | dropped

/-- What follows a `transition`. -/
inductive After
  | lookup
  | ended (ending : Ending)

/-- Where a call stands: what it does next. -/
inductive Phase
  /-- `transition`: write the state and the pools under the lock -/
  | locking (state : ConnectionState) (pools : Option PoolSet) (after : After)
  /-- `transition`: close the displaced pools -/
  | closing (displaced : PoolSet) (state : ConnectionState) (after : After)
  /-- `transition`: publish the new state -/
  | publishing (state : ConnectionState) (after : After)
  /-- look up the driver -/
  | lookup
  /-- build the user pool -/
  | buildingUser
  /-- build the metadata pool -/
  | buildingMetadata (user : Pool)
  /-- wait for one connection of the user pool -/
  | warming (pools : PoolSet)
  /-- read whether the entry is still `Connecting` -/
  | checking (pools : PoolSet)
  /-- close the call's own pools -/
  | discarding (pools : PoolSet)
  /-- the dropped guard reads whether the entry is still `Connecting` -/
  | guarding (ending : Ending)
  | finished (ending : Ending)

structure Call where
  request : Request
  phase : Phase

structure State where
  /-- the largest size of a user pool -/
  maxSize : Nat
  drivers : List String
  entries : ConnectionId → Option ConnEntry
  closed : Pool → Bool
  published : List AppEvent
  calls : Nat → Option Call

inductive Action
  /-- call `i` to `connect` or `disconnect` starts -/
  | start (i : Nat) (request : Request)
  /-- call `i` takes its next lock section, closes or publishes -/
  | advance (i : Nat)
  /-- call `i` builds a pool -/
  | build (i : Nat) (reply : Except String Unit)
  /-- the warm-up of call `i` ends -/
  | warmUp (i : Nat) (reply : Except PoolError Unit)
  /-- the future of call `i` is dropped in its warm-up -/
  | abort (i : Nat)
  | registerDriver (engine : String)

/-- The call that takes the step. -/
def Action.call? : Action → Option Nat
  | start i _ => some i
  | advance i => some i
  | build i _ => some i
  | warmUp i _ => some i
  | abort i => some i
  | registerDriver _ => none

namespace State

/-- Call `i` goes on with `phase`. -/
def goto (s : State) (i : Nat) (call : Call) (phase : Phase) : State :=
  { s with calls := Function.update s.calls i (some { call with phase }) }

/-- The lock section of `transition`: the entry it leaves. -/
def write (s : State) (id : ConnectionId) (entry : ConnEntry) : State :=
  { s with entries := Function.update s.entries id (some entry) }

def close (s : State) (pools : PoolSet) : State :=
  { s with closed := pools.close s.closed }

def publish (s : State) (event : AppEvent) : State :=
  { s with published := s.published ++ [event] }

/-- The pools that the entry of `id` holds. -/
def pools (s : State) (id : ConnectionId) : Option PoolSet :=
  (s.entries id).bind ConnEntry.pools

/-- Whether the entry of `id` is `Connecting`. -/
def connecting (s : State) (id : ConnectionId) : Bool :=
  (s.entries id).any fun entry => decide (entry.state = .connecting)

end State

@[simp] theorem goto_entries (s : State) (i : Nat) (call : Call)
    (phase : Phase) : (s.goto i call phase).entries = s.entries :=
  rfl

@[simp] theorem goto_calls_self (s : State) (i : Nat) (call : Call)
    (phase : Phase) :
    (s.goto i call phase).calls i = some { call with phase } := by
  simp [State.goto]

theorem goto_calls_of_ne (s : State) {i k : Nat} (call : Call) (phase : Phase)
    (h : k ≠ i) : (s.goto i call phase).calls k = s.calls k := by
  simp [State.goto, h]

/-- The phase that a failing `connect` goes on with. -/
def failing (error : ServiceError) : Phase :=
  .locking .failed none (.ended (.returned (.error error)))

def noDriver (engine : String) : ServiceError :=
  .startupFailed "ConnectionService"
    ("no driver registered for engine '" ++ engine ++ "'")

def poolBuildFailed (reason : String) : ServiceError :=
  .startupFailed "ConnectionService" ("pool build failed: " ++ reason)

def warmUpFailed (error : PoolError) : ServiceError :=
  .startupFailed "ConnectionService" (poolErrorReason error)

def disconnectedMeanwhile : ServiceError :=
  .startupFailed "ConnectionService"
    "connection was disconnected while connecting"

/-! ## Steps -/

/-- Start `connect` or `disconnect`: both begin with a `transition`. -/
def firstPhase : Request → Phase
  | .connect _ => .locking .connecting none .lookup
  | .disconnect _ =>
      .locking .disconnected none (.ended (.returned (.ok ())))

/-- What follows the publication at the end of a `transition`. -/
def resume : After → Phase
  | .lookup => .lookup
  | .ended ending => .finished ending

/-- The lock section of `transition`. -/
def lockSection (s : State) (i : Nat) (call : Call) (state : ConnectionState)
    (pools : Option PoolSet) (after : After) : State :=
  let id := call.request.id
  let next :=
    match s.pools id with
    | some old => .closing old state after
    | none => .publishing state after
  (s.write id { state, pools }).goto i call next

/-- The next lock section, closure or publication of `call`. -/
def advance (s : State) (i : Nat) (call : Call) : Option State :=
  match call.phase, call.request with
  | .locking state pools after, _ =>
      some (lockSection s i call state pools after)
  | .closing displaced state after, _ =>
      some ((s.close displaced).goto i call (.publishing state after))
  | .publishing state after, request =>
      some ((s.publish (.connectionStateChanged request.id state)).goto i call
        (resume after))
  | .lookup, .connect connection =>
      let engine := connection.driver.engineName
      some (s.goto i call
        (if engine ∈ s.drivers then .buildingUser
          else failing (noDriver engine)))
  | .checking pools, .connect connection =>
      -- the guard is disarmed on both ways
      some (s.goto i call
        (if s.connecting connection.id then
          .locking .connected (some pools) (.ended (.returned (.ok ())))
          else .discarding pools))
  | .discarding pools, _ =>
      some ((s.close pools).goto i call
        (.finished (.returned (.error disconnectedMeanwhile))))
  | .guarding ending, .connect connection =>
      some (s.goto i call
        (if s.connecting connection.id then
          .locking .failed none (.ended ending)
          else .finished ending))
  | _, _ => none

/-- `build_pool`: an error leaves the guard armed. -/
def build (s : State) (i : Nat) (call : Call) (reply : Except String Unit) :
    Option State :=
  match call.phase, reply with
  | .buildingUser, .ok () =>
      some (s.goto i call (.buildingMetadata ⟨i, .user, max s.maxSize 1⟩))
  | .buildingMetadata user, .ok () =>
      some (s.goto i call (.warming ⟨user, ⟨i, .metadata, 1⟩⟩))
  | .buildingUser, .error reason =>
      some (s.goto i call (.guarding (.returned (.error (poolBuildFailed reason)))))
  | .buildingMetadata _, .error reason =>
      some (s.goto i call (.guarding (.returned (.error (poolBuildFailed reason)))))
  | _, _ => none

/-- The warm-up: one connection of the user pool. -/
def warmUp (s : State) (i : Nat) (call : Call)
    (reply : Except PoolError Unit) : Option State :=
  match call.phase, reply with
  | .warming pools, .ok () => some (s.goto i call (.checking pools))
  | .warming _, .error error =>
      some (s.goto i call (failing (warmUpFailed error)))
  | _, _ => none

/-- The future of a call is dropped where it waits. -/
def abort (s : State) (i : Nat) (call : Call) : Option State :=
  match call.phase with
  | .warming _ => some (s.goto i call (.guarding .dropped))
  | _ => none

def next (s : State) : Action → Option State
  | .start i request =>
      match s.calls i with
      | none => some (s.goto i ⟨request, firstPhase request⟩ (firstPhase request))
      | some _ => none
  | .advance i => (s.calls i).bind fun call => advance s i call
  | .build i reply => (s.calls i).bind fun call => build s i call reply
  | .warmUp i reply => (s.calls i).bind fun call => warmUp s i call reply
  | .abort i => (s.calls i).bind fun call => abort s i call
  | .registerDriver engine => some { s with drivers := engine :: s.drivers }

/-- The service that `with_pool_config` makes. -/
def State.withPoolConfig (maxSize : Nat) : State where
  maxSize := maxSize
  drivers := []
  entries _ := none
  closed _ := false
  published := []
  calls _ := none

/-- A service on which nothing has been called. -/
def Fresh (s : State) : Prop :=
  (∀ id, s.entries id = none) ∧ (∀ i, s.calls i = none) ∧
    (∀ pool, s.closed pool = false) ∧ s.published = []

theorem fresh_withPoolConfig (maxSize : Nat) :
    Fresh (State.withPoolConfig maxSize) :=
  ⟨fun _ => rfl, fun _ => rfl, fun _ => rfl, rfl⟩

/-- The service under any interleaving of its calls. -/
def system : System State Action :=
  .ofNext Fresh next

end ConnectionService

end Tempr.Services
