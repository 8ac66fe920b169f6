import FerricStore.EndpointLifecycle
import FerricStore.TopologyRetry

/-!
# Routing a batch against one topology

A batch notes the generation of the topology, routes each command, leases each endpoint
once and looks at the generation again. A change of the generation on the way releases the
leases and starts over. The lock is free between the steps: before each of them other
threads change the shared state as they like, and so they do during a call that leaves the
lock, such as the creation of an adapter.
-/

set_option autoImplicit false

namespace FerricStore.RoutedBatch
open Text Stateful EndpointLifecycle
open TopologyRetry (Exn)

/-- The fields of the topology pool that its lock protects. -/
structure Shared (κ α τ : Type) where
  closed : Bool
  generation : ℕ
  topology : τ
  life : Lifecycle κ α
  creations : List κ
  subscriptionGeneration : ℕ

/-- A call without the lock, during which anything can happen to the shared state. -/
abbrev External (σ κ α τ β : Type) := σ × Shared κ α τ → Except Exn β × σ × Shared κ α τ

/-- The other threads and the rest of the SDK, with a state `σ` of their own: `κ` are the
connection endpoints, `α` the adapters, `τ` the topologies, `ρ` the routes, `μ` the routing
keys and `π` the prepared commands. -/
structure Host (σ κ α τ ρ μ π : Type) where
  yield : σ × Shared κ α τ → σ × Shared κ α τ
  routableKey : π → Except Exn (Option μ)
  route : τ → μ → Except Exn ρ
  endpointKey : ρ → Except Exn κ
  laneId : ρ → ℤ
  validateEndpoint : ρ → External σ κ α τ Unit
  awaitCreation : κ → External σ κ α τ α
  newEndpointAdapter : ρ → External σ κ α τ α
  registerAdapterEvents : α → External σ κ α τ Unit
  activateSubscriptions : α → External σ κ α τ Unit
  cleanupRetiredAdapters : List α → σ × Shared κ α τ → σ × Shared κ α τ
  controlAdapter : External σ κ α τ α
  isIdle : σ → α → Bool

/-- `RoutedBatchTarget`. -/
structure Target (α : Type) where
  adapter : α
  laneId : Option ℤ
  deriving DecidableEq, Repr

abbrev Lease (κ α : Type) := EndpointAdapterLease κ α

/-- The local variables of an attempt. -/
structure Locals (κ α π : Type) where
  routedCommands : List (Target α × π)
  leases : List (Lease κ α)
  leasesByEndpoint : Dict κ (Lease κ α)

/-- What happened under the lock. -/
inductive Event (κ α τ μ : Type) where
  | attempt (generation : ℕ)
  | routed (key : μ) (topology : τ) (generation : ℕ)
  | leased (lease : Lease κ α)
  | released (lease : Lease κ α)
  | checked (generation : ℕ)

structure World (σ κ α τ μ π : Type) where
  env : σ
  shared : Shared κ α τ
  locals : Locals κ α π
  trace : List (Event κ α τ μ)

section Program

variable {σ κ α τ ρ μ π β : Type}

abbrev Run (σ κ α τ μ π β : Type) := EStateM Exn (World σ κ α τ μ π) β

def lift (x : Except Exn β) : Run σ κ α τ μ π β := fun w =>
  match x with
  | .ok a => .ok a w
  | .error e => .error e w

def external (f : External σ κ α τ β) : Run σ κ α τ μ π β := fun w =>
  let r := f (w.env, w.shared)
  lift r.1 ⟨r.2.1, r.2.2, w.locals, w.trace⟩

variable (host : Host σ κ α τ ρ μ π)

/-- One section under the lock. -/
def locked (f : σ → Shared κ α τ → Except Exn β × Shared κ α τ × List (Event κ α τ μ)) :
    Run σ κ α τ μ π β := fun w =>
  let e := host.yield (w.env, w.shared)
  let r := f e.1 e.2
  lift r.1 ⟨e.1, r.2.1, w.locals, w.trace++r.2.2⟩

def cleanup (adapters : List α) : Run σ κ α τ μ π Unit :=
  external fun e => (.ok (), host.cleanupRetiredAdapters adapters e)

def ferricStoreError (message : String) : Exn :=
  .ferricStore ⟨lit message, .none, none, none, .none⟩

def poolIsClosed : Exn := ferricStoreError "protocol topology pool is closed"

def unavailable : Exn := ferricStoreError "protocol endpoint adapter is unavailable"

/-- `_route_prepared`: the route with the generation it was made under. -/
def routePrepared (prepared : π) : Run σ κ α τ μ π (Option (ρ × ℕ)) := do
  match ← lift (host.routableKey prepared) with
  | none => pure none
  | some key => locked host fun _ s =>
    if s.closed then (.error poolIsClosed, s, [])
    else match host.route s.topology key with
      | .error e => (.error e, s, [])
      | .ok route => (.ok (some (route, s.generation)), s, [.routed key s.topology s.generation])

/-- The test that `_adapter_for_key` makes each time it takes the lock. -/
def ifCurrent (expected : ℕ) (s : Shared κ α τ)
    (f : Except Exn β × Shared κ α τ × List (Event κ α τ μ)) :
    Except Exn β × Shared κ α τ × List (Event κ α τ μ) :=
  if s.closed then (.error poolIsClosed, s, [])
  else if expected ≠ s.generation then (.error .generationChanged, s, [])
  else f

variable [DecidableEq κ] [DecidableEq α]

/-- A lease that the lifecycle gave, or its refusal. -/
def granted (s : Shared κ α τ) (r : Option (Lease κ α) × Lifecycle κ α) :
    Except Exn (Lease κ α) × Shared κ α τ × List (Event κ α τ μ) :=
  match r with
  | (some l, life) => (.ok l, { s with life := life }, [.leased l])
  | (none, life) => (.error unavailable, { s with life := life }, [])

def mapResult {γ : Type} (f : β → γ)
    (r : Except Exn β × Shared κ α τ × List (Event κ α τ μ)) :
    Except Exn γ × Shared κ α τ × List (Event κ α τ μ) := (r.1.map f, r.2)

/-- The first section of `_adapter_for_key` with `acquire`: the lease of an adapter that
exists, or whether this call creates it. -/
def enterAdapterForKey (key : κ) (expected : ℕ) : Run σ κ α τ μ π (Lease κ α ⊕ Bool) :=
  locked host fun _ s => ifCurrent expected s <|
    match s.life.get key with
    | (some adapter, life) => mapResult .inl (granted s (life.acquire key (some adapter)))
    | (none, life) =>
      (.ok (.inr (key ∉ s.creations)), { s with life := life.reserve key, creations :=
          if key ∈ s.creations then s.creations else key::s.creations }, [])

/-- `cancel_reservation` and the cleanup of the adapter it gives. -/
def cancelReservation (key : κ) (created : Bool) : Run σ κ α τ μ π Unit := do
  let ready ← locked host fun e s =>
    let r := s.life.cancelReservation (host.isIdle e) key
    (.ok r.1, { s with life := r.2, creations :=
        if created then s.creations.erase key else s.creations }, [])
  cleanup host ready.toList

/-- `except BaseException`; a call that has not returned has no handler yet. -/
def cleaning (x : Run σ κ α τ μ π β) (handler : Run σ κ α τ μ π Unit) : Run σ κ α τ μ π β :=
  tryCatch x fun exc =>
    if exc = .waiting then throw exc
    else do
      handler
      throw exc

/-- The second section of the branch that waits for another thread. -/
def joinAdapter (key : κ) (expected : ℕ) (adapter : α) :
    Run σ κ α τ μ π (Lease κ α ⊕ Option α) :=
  locked host fun e s =>
    if expected ≠ s.generation then
      let r := s.life.cancelReservation (host.isIdle e) key
      (.ok (.inr r.1), { s with life := r.2 }, [])
    else mapResult .inl (granted s (s.life.acquireReserved key adapter))

/-- The branch of `_adapter_for_key` that waits for another thread. -/
def awaitAdapter (key : κ) (expected : ℕ) : Run σ κ α τ μ π (Lease κ α) := do
  let adapter ← cleaning (external (host.awaitCreation key)) (cancelReservation host key false)
  match ← joinAdapter host key expected adapter with
  | .inl lease => pure lease
  | .inr ready => do
    cleanup host ready.toList
    throw .generationChanged

/-- The section that puts the created adapter in the table, unless the subscriptions changed
since they were activated. -/
def publishAdapter (key : κ) (expected : ℕ) (candidate : α) (seen : ℕ) :
    Run σ κ α τ μ π (Option (Lease κ α)) :=
  locked host fun _ s => ifCurrent expected s <|
    if seen ≠ s.subscriptionGeneration then (.ok none, s, [])
    else mapResult some (granted { s with creations := s.creations.erase key }
      ((s.life.put key candidate).acquireReserved key candidate))

/-- The loop of the branch that creates the adapter: its subscriptions are activated until
they are those of the pool. -/
def installAdapter (key : κ) (expected : ℕ) (candidate : α) : ℕ → Run σ κ α τ μ π (Lease κ α)
  | 0 => throw .waiting
  | fuel+1 => do
    let seen ← locked host fun _ s => ifCurrent expected s (.ok s.subscriptionGeneration, s, [])
    external (host.activateSubscriptions candidate)
    match ← publishAdapter host key expected candidate seen with
    | some lease => pure lease
    | none => installAdapter key expected candidate fuel

def createAdapter (fuel : ℕ) (route : ρ) (key : κ) (expected : ℕ) :
    Run σ κ α τ μ π (Lease κ α) :=
  cleaning (do
      let candidate ← external (host.newEndpointAdapter route)
      cleaning (do
          external (host.registerAdapterEvents candidate)
          installAdapter host key expected candidate fuel)
        (cleanup host [candidate]))
    (cancelReservation host key true)

/-- `_leased_adapter_for_endpoint`. -/
def leasedAdapterForEndpoint (fuel : ℕ) (route : ρ) (generation : ℕ) :
    Run σ κ α τ μ π (Lease κ α) := do
  external (host.validateEndpoint route)
  let key ← lift (host.endpointKey route)
  match ← enterAdapterForKey host key generation with
  | .inl lease => pure lease
  | .inr true => createAdapter host fuel route key generation
  | .inr false => awaitAdapter host key generation

def setLocals (f : Locals κ α π → Locals κ α π) : Run σ κ α τ μ π Unit := fun w =>
  .ok () ⟨w.env, w.shared, f w.locals, w.trace⟩

def getLocals : Run σ κ α τ μ π (Locals κ α π) := fun w => .ok w.locals w

def addTarget (target : Target α) (prepared : π) (l : Locals κ α π) : Locals κ α π :=
  { l with routedCommands := l.routedCommands++[(target, prepared)] }

def addLease (key : κ) (lease : Lease κ α) (l : Locals κ α π) : Locals κ α π :=
  { l with leases := l.leases++[lease]
           leasesByEndpoint := Dict.set l.leasesByEndpoint key lease }

/-- The lease of the endpoint, taken if the attempt has none yet. -/
def leaseEndpoint (fuel : ℕ) (route : ρ) (generation : ℕ) : Run σ κ α τ μ π (Lease κ α) := do
  let key ← lift (host.endpointKey route)
  let l ← getLocals
  match Dict.get? l.leasesByEndpoint key with
  | some lease => pure lease
  | none => do
    let lease ← leasedAdapterForEndpoint host fuel route generation
    setLocals (addLease key lease)
    pure lease

/-- One pass of the loop over the commands. -/
def routeCommand (fuel generation : ℕ) (prepared : π) : Run σ κ α τ μ π Unit := do
  match ← routePrepared host prepared with
  | none => do
    let adapter ← external host.controlAdapter
    setLocals (addTarget ⟨adapter, none⟩ prepared)
  | some (route, current) =>
    if current ≠ generation then throw .generationChanged
    else do
      let lease ← leaseEndpoint host fuel route generation
      setLocals (addTarget ⟨lease.adapter, some (host.laneId route)⟩ prepared)

def routeCommands (fuel generation : ℕ) : List π → Run σ κ α τ μ π Unit
  | [] => pure ()
  | prepared::rest => do
    routeCommand host fuel generation prepared
    routeCommands fuel generation rest

/-- The check after the loop. -/
def checkGeneration (generation : ℕ) : Run σ κ α τ μ π Unit :=
  locked host fun _ s =>
    if generation ≠ s.generation then (.error .generationChanged, s, [.checked s.generation])
    else (.ok (), s, [.checked s.generation])

/-- `_release_adapter_lease`. -/
def releaseAdapterLease (lease : Lease κ α) : Run σ κ α τ μ π Unit := do
  let ready ← locked host fun e s =>
    let r := s.life.release (host.isIdle e) lease
    (.ok r.1, { s with life := r.2 }, [.released lease])
  cleanup host ready.toList

def releaseAll : List (Lease κ α) → Run σ κ α τ μ π Unit
  | [] => pure ()
  | lease::rest => do
    releaseAdapterLease host lease
    releaseAll rest

/-- `for lease in reversed(leases)`. -/
def releaseLeases : Run σ κ α τ μ π Unit := do
  let l ← getLocals
  releaseAll host l.leases.reverse

/-- The handlers of an attempt: the loop goes on after a change of the topology. -/
def attemptHandler (exc : Exn) : Run σ κ α τ μ π (Option (Locals κ α π)) :=
  if exc = .waiting then throw exc
  else do
    releaseLeases host
    if exc = .generationChanged then pure none else throw exc

/-- One pass of the `while True`. -/
def attempt (fuel : ℕ) (commands : List π) : Run σ κ α τ μ π (Option (Locals κ α π)) := do
  let generation ← locked host fun _ s => (.ok s.generation, s, [.attempt s.generation])
  setLocals fun _ => ⟨[], [], []⟩
  tryCatch (do
      routeCommands host fuel generation commands
      checkGeneration host generation
      some <$> getLocals)
    (attemptHandler host)

def attempts (fuel : ℕ) (commands : List π) : ℕ → Run σ κ α τ μ π (Locals κ α π)
  | 0 => throw .waiting
  | n+1 => do
    match ← attempt host fuel commands with
    | some l => pure l
    | none => attempts fuel commands n

/-- `check_batch_item_limit`, with its error as the batch raises it. -/
def checkBatchItemLimit (count : ℕ) : Option ℕ → Except Exn Unit
  | some limit =>
    if limit < count then
      .error (ferricStoreError ("protocol batch items exceed max_batch_items="++toString limit))
    else .ok ()
  | none => .ok ()

/-- `_prepare_routed_batch`, given the planner of single commands and the item limit. -/
def prepareRoutedBatch (prepare : List Value → Except Exn π) (maxBatchItems : Option ℕ)
    (fuel : ℕ) (commands : List (List Value)) : Run σ κ α τ μ π (Locals κ α π) := do
  lift (checkBatchItemLimit commands.length maxBatchItems)
  let prepared ← lift (commands.mapM prepare)
  attempts host fuel prepared fuel

end Program

end FerricStore.RoutedBatch
