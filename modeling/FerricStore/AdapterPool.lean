import FerricStore.Transitions

/-!
# The adapter pool and its callers

Ordinary commands, event polls, sessions and broadcasts share the adapters of a pool. Each
method takes the lock of one condition variable, so between its waits it is one step. A
call in progress stands at such a boundary, and a state is the pool with all calls in
progress. A call that waits may look again at any time.
-/

set_option autoImplicit false

namespace FerricStore.AdapterPool

/-- The fields of `ProtocolAdapterPool` that its lock protects. -/
structure Pool where
  size : ℕ
  cursor : ℕ
  leased : Finset ℕ
  active : ℕ → ℤ
  closed : Bool
  sessionWaiters : ℤ
  broadcasting : Bool

/-- `__init__` with so many adapters. -/
def Pool.init (size : ℕ) : Pool := ⟨size, 0, ∅, fun _ => 0, false, 0, false⟩

/-- How a pass through a waiting loop ends. -/
inductive Pass where
  | raised
  | granted (index : ℕ) (pool : Pool)
  | waits

inductive BroadcastPass where
  | raised
  | started (pool : Pool)
  | waits

namespace Pool

variable (p : Pool)

/-- The first adapter from the cursor on that the loop takes. -/
def scan (free : ℕ → Bool) : Option ℕ :=
  ((List.range p.size).map fun offset => (p.cursor+offset) % p.size).find? free

def addActive (index : ℕ) (n : ℤ) : Pool :=
  { p with active := Function.update p.active index (p.active index+n) }

def setCursor (cursor : ℕ) : Pool := { p with cursor := cursor }

def addWaiters (n : ℤ) : Pool := { p with sessionWaiters := p.sessionWaiters+n }

/-- A pass of `_acquire_adapter`. -/
def acquireAdapter : Pass :=
  if p.closed then .raised
  else if p.sessionWaiters = 0 then
    match p.scan fun i => i ∉ p.leased with
    | some i => .granted i ((p.addActive i 1).setCursor (i+1))
    | none => .waits
  else .waits

/-- `_release_adapter`. -/
def releaseAdapter (index : ℕ) : Pool := p.addActive index (-1)

/-- `_reserve_event_adapter`. -/
def reserveEventAdapter (excluded : List ℕ) : Option (ℕ × Pool) :=
  if p.closed || p.sessionWaiters ≠ 0 then none
  else ((List.range p.size).find? fun i => i ∉ excluded && i ∉ p.leased).map
    fun i => (i, p.addActive i 1)

/-- A pass of the loop of `acquire_session`. -/
def sessionPass : Pass :=
  if p.closed then .raised
  else if p.broadcasting then .waits
  else match p.scan fun i => i ∉ p.leased && p.active i = 0 with
    | some i => .granted i ({ p with leased := insert i p.leased }.setCursor (i+1))
    | none => .waits

/-- `_release_session`. -/
def releaseSession (index : ℕ) : Pool := { p with leased := p.leased.erase index }

/-- A pass of the loop of `subscribe_flow_wake`. -/
def broadcastPass : BroadcastPass :=
  if (p.leased ≠ ∅ || p.broadcasting) && !p.closed then .waits
  else if p.closed then .raised
  else .started { p with broadcasting := true }

def endBroadcast : Pool := { p with broadcasting := false }

end Pool

/-- A call in progress. -/
inductive Call where
  /-- In `_acquire_adapter`. -/
  | command
  /-- The adapter runs an ordinary command. -/
  | running (index : ℕ)
  /-- `_track_futures` waits for so many futures. -/
  | tracking (index remaining : ℕ)
  /-- Before `_release_adapter`. -/
  | releasing (index : ℕ)
  /-- In `_take_available_event`, before the next reservation. -/
  | poll (checked : List ℕ)
  /-- The adapter is asked for an event. -/
  | polling (index : ℕ) (checked : List ℕ)
  /-- Before `acquire_session`. -/
  | session
  /-- Waiting in `acquire_session`. -/
  | waiting
  /-- An open session. -/
  | held (index : ℕ)
  /-- Before `_release_session`. -/
  | closing (index : ℕ)
  /-- In `subscribe_flow_wake`, before the broadcast. -/
  | broadcast
  | broadcasting
  deriving DecidableEq, Repr

/-- The calls that a thread can make. -/
def Call.starts : Call → Bool
  | .command | .session | .broadcast => true
  | .poll checked => checked = []
  | _ => false

/-- One step of a call: the pool after it, and what is left of the call. -/
inductive Move : Pool → Call → Pool → List Call → Prop where
  | commandRaises {p : Pool} (h : p.acquireAdapter = .raised) : Move p .command p []
  | commandWaits {p : Pool} (h : p.acquireAdapter = .waits) : Move p .command p [.command]
  | commandRuns {p q : Pool} {i : ℕ} (h : p.acquireAdapter = .granted i q) :
      Move p .command q [.running i]
  /-- The command ended or raised, or it left no future. -/
  | commandEnds (p : Pool) (i : ℕ) : Move p (.running i) p [.releasing i]
  | commandTracked (p : Pool) (i n : ℕ) : Move p (.running i) p [.tracking i (n+1)]
  | futureDone (p : Pool) (i n : ℕ) : Move p (.tracking i (n+2)) p [.tracking i (n+1)]
  | lastFutureDone (p : Pool) (i : ℕ) : Move p (.tracking i 1) p [.releasing i]
  | release (p : Pool) (i : ℕ) : Move p (.releasing i) (p.releaseAdapter i) []
  | pollEnds {p : Pool} {checked : List ℕ} (h : p.reserveEventAdapter checked = none) :
      Move p (.poll checked) p []
  | pollReserves {p q : Pool} {checked : List ℕ} {i : ℕ}
      (h : p.reserveEventAdapter checked = some (i, q)) :
      Move p (.poll checked) q [.polling i checked]
  /-- There was an event, or the adapter raised. -/
  | pollReturns (p : Pool) (i : ℕ) (checked : List ℕ) :
      Move p (.polling i checked) (p.releaseAdapter i) []
  | pollNext (p : Pool) (i : ℕ) (checked : List ℕ) :
      Move p (.polling i checked) (p.releaseAdapter i) [.poll (i::checked)]
  | sessionRaises {p : Pool} (h : p.closed = true) : Move p .session p []
  | sessionEnters {p : Pool} (h : p.closed = false)
      (hpass : (p.addWaiters 1).sessionPass = .waits) :
      Move p .session (p.addWaiters 1) [.waiting]
  | sessionGranted {p q : Pool} {i : ℕ} (h : p.closed = false)
      (hpass : (p.addWaiters 1).sessionPass = .granted i q) :
      Move p .session (q.addWaiters (-1)) [.held i]
  | waitingWaits {p : Pool} (h : p.sessionPass = .waits) : Move p .waiting p [.waiting]
  | waitingGranted {p q : Pool} {i : ℕ} (h : p.sessionPass = .granted i q) :
      Move p .waiting (q.addWaiters (-1)) [.held i]
  /-- The pool was closed, or the wait was interrupted. -/
  | waitingRaises (p : Pool) : Move p .waiting (p.addWaiters (-1)) []
  | sessionCloses (p : Pool) (i : ℕ) : Move p (.held i) p [.closing i]
  | sessionReleased (p : Pool) (i : ℕ) : Move p (.closing i) (p.releaseSession i) []
  | broadcastRaises {p : Pool} (h : p.broadcastPass = .raised) : Move p .broadcast p []
  | broadcastWaits {p : Pool} (h : p.broadcastPass = .waits) : Move p .broadcast p [.broadcast]
  | broadcastStarts {p q : Pool} (h : p.broadcastPass = .started q) :
      Move p .broadcast q [.broadcasting]
  | broadcastEnds (p : Pool) : Move p .broadcasting p.endBroadcast []

structure State where
  pool : Pool
  calls : List Call

/-- A thread makes a call, a call takes a step, or the pool is closed. -/
inductive Step : State → State → Prop where
  | start {s : State} {c : Call} (h : c.starts = true) : Step s ⟨s.pool, c::s.calls⟩
  | move {p q : Pool} {c : Call} {cs before after : List Call} (h : Move p c q cs) :
      Step ⟨p, before++c::after⟩ ⟨q, before++cs++after⟩
  | close (s : State) : Step s ⟨{ s.pool with closed := true }, s.calls⟩

/-- The states of a pool of so many adapters. -/
def Reachable (size : ℕ) (s : State) : Prop :=
  Relation.ReflTransGen Step ⟨Pool.init size, []⟩ s

end FerricStore.AdapterPool
