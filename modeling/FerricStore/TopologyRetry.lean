import FerricStore.Stateful
import FerricStore.RoutingTopology

/-!
# Replay of a routed command

A command is routed, an endpoint is leased for it and the command is sent there. After
an error the command is sent once more if it is safe to, and a command without a route is
sent to the control connection, which has a replay of its own. What the calls to other
parts of the SDK return is left open: the host answers from a state that it changes as it
likes. The calls that matter are kept in a trace.
-/

set_option autoImplicit false

namespace FerricStore.TopologyRetry
open Text Stateful RoutingTopology

/-- The attributes of a `FerricStoreError`. -/
structure ServerError where
  message : Str
  raw : Value
  retryable : Option Bool
  safeToRetry : Option Bool
  retryAfterMs : Value
  deriving DecidableEq, Repr

inductive Exn where
  /-- `OSError`, `TimeoutError` and the timeout of a future. -/
  | transport
  | ferricStore (error : ServerError)
  | generationChanged
  /-- Any other `Exception`. -/
  | other (name : String)
  /-- A `BaseException` that is no `Exception`. -/
  | interrupt
  /-- The loop is still waiting for a topology that stays. -/
  | waiting
  deriving DecidableEq, Repr

/-- What `except Exception` catches. -/
def Exn.isException : Exn → Bool
  | .interrupt | .waiting => false
  | _ => true

section Classification

variable (rt : Runtime)

/-- `_optional_text`. -/
def optionalText (mapping : Value) (key : String) : Except Exn (Option Str) :=
  match mapGet mapping [key] with
  | .none => .ok none
  | v => match rt.text v with
    | .ok s => .ok (some s)
    | .error _ => .error (.other "UnicodeDecodeError")

def routeReasons : List Str := [lit "reroute", lit "leader_changed", lit "not_leader"]

def hasRouteReason (raw : Value) : Except Exn Bool := do
  let reason ← optionalText rt raw "reason"
  .ok (reason.any fun r => decide (rt.lowerText r ∈ routeReasons))

/-- `any(token in message for token in …)` of the lowered message. -/
def mentions (message : Str) (tokens : List String) : Bool :=
  tokens.any fun token => decide (lit token <:+: rt.lowerText message)

/-- `_is_retryable_route_error`. -/
def isRetryableRouteError : Exn → Except Exn Bool
  | .transport => .ok true
  | .ferricStore e =>
    match e.retryable with
    | some r => .ok r
    | none =>
      if mentions rt e.message ["connection", "closed", "reroute", "leader"] then .ok true
      else hasRouteReason rt e.raw
  | _ => .ok false

/-- `_server_retry_delay_seconds`, in milliseconds. -/
def serverRetryDelay : Exn → Option ℤ
  | .ferricStore e =>
    match e.retryAfterMs with
    | .none => some 0
    | .int n => if 0 ≤ n ∧ n ≤ 30000 then some n else none
    | _ => none
  | _ => some 0

/-- `_server_allows_retry`. -/
def serverAllowsRetry : Exn → Bool
  | .ferricStore e => e.retryable = some true && e.safeToRetry = some true &&
      (serverRetryDelay (.ferricStore e)).isSome
  | .transport => true
  | _ => false

/-- `_is_topology_refresh_error`. -/
def isTopologyRefreshError : Exn → Except Exn Bool
  | .transport => .ok true
  | .ferricStore e => do
    if ← hasRouteReason rt e.raw then .ok true
    else .ok (mentions rt e.message
      ["reroute", "not leader", "not_leader", "leader changed", "connection closed"])
  | _ => .ok false

/-- `_SAFE_CONTROL_RETRY_COMMANDS`. -/
def safeControlRetryCommands : List Str :=
  [lit "FLOW.QUERY", lit "FLOW.QUERY.INDEXES", lit "OPTIONS", lit "PING", lit "SHARDS"]

/-- `_is_safe_control_retry`. -/
def isSafeControlRetry : List Value → Bool
  | [] => false
  | name::_ => decide (rt.commandToken name ∈ safeControlRetryCommands)

end Classification

/-- The rest of the topology host: `ρ` is a routed command, `ℓ` a lease, `κ` the control
adapter and `β` the result of a command. -/
structure Host (σ ρ ℓ κ β : Type) where
  routeData : List Value → σ → Except Exn (Option ρ) × σ
  leasedAdapterForEndpoint : ρ → σ → Except Exn ℓ × σ
  executeProtocolCommand : ℓ → ρ → σ → Except Exn β × σ
  releaseAdapterLease : ℓ → σ → Except Exn Unit × σ
  controlAdapter : σ → Except Exn κ × σ
  executeCommand : κ → List Value → σ → Except Exn β × σ
  refreshTopology : σ → Except Exn Unit × σ
  flowQueryRetryIsManaged : σ → Bool

inductive Event (ℓ β : Type) where
  | dispatch (result : Except Exn β)
  | refresh (result : Except Exn Unit)
  | sleep (ms : ℤ)
  | lease (l : ℓ)
  | release (l : ℓ)

/-- The host's state, the local `lease` of the running attempt and the trace. -/
structure World (σ ℓ β : Type) where
  host : σ
  lease : Option ℓ
  trace : List (Event ℓ β)

section Program

variable {σ ρ ℓ κ β α : Type}

abbrev Run (σ ℓ β α : Type) := EStateM Exn (World σ ℓ β) α

def lift (x : Except Exn α) : Run σ ℓ β α := fun w =>
  match x with
  | .ok a => .ok a w
  | .error e => .error e w

/-- A call of the host, with the events that it leaves. -/
def call (events : Except Exn α → List (Event ℓ β)) (f : σ → Except Exn α × σ) :
    Run σ ℓ β α := fun w =>
  lift (f w.host).1 ⟨(f w.host).2, w.lease, w.trace++events (f w.host).1⟩

def dispatch (f : σ → Except Exn β × σ) : Run σ ℓ β β := call (fun r => [.dispatch r]) f

def silent (f : σ → Except Exn α × σ) : Run σ ℓ β α := call (fun _ => []) f

/-- `time.sleep`. -/
def sleep (ms : ℤ) : Run σ ℓ β Unit := call (fun _ => [.sleep ms]) fun s => (.ok (), s)

def leaseEvents : Except Exn ℓ → List (Event ℓ β)
  | .ok l => [.lease l]
  | .error _ => []

/-- `lease = …`. -/
def setLease (lease : Option ℓ) : Run σ ℓ β Unit := fun w => .ok () ⟨w.host, lease, w.trace⟩

variable (rt : Runtime) (host : Host σ ρ ℓ κ β) (args : List Value)

/-- `with contextlib.suppress(Exception)` around the refresh: whether it succeeded. -/
def tryRefresh : Run σ ℓ β Bool :=
  tryCatch (do
      call (fun r => [.refresh r]) host.refreshTopology
      pure true)
    fun exc => if exc.isException then pure false else throw exc

def raiseIf (condition : Bool) (exc : Exn) : Run σ ℓ β Unit :=
  if condition then throw exc else pure ()

def isManaged : Run σ ℓ β Bool := fun w => .ok (host.flowQueryRetryIsManaged w.host) w

/-- `if delay: time.sleep(delay)`. -/
def sleepFor (delay : Option ℤ) : Run σ ℓ β Unit :=
  match delay with
  | some ms => if ms = 0 then pure () else sleep ms
  | none => pure ()

/-- The part of both handlers from the check of the error on: it raises unless the command
may be sent again, and waits as long as the server asks for. -/
def prepareReplay (exc : Exn) : Run σ ℓ β Unit := do
  raiseIf (!exc.isException) exc
  let retryable ← lift (isRetryableRouteError rt exc)
  raiseIf (!retryable) exc
  let refreshRequired ← lift (isTopologyRefreshError rt exc)
  let refreshed ← bif refreshRequired then tryRefresh host else pure true
  let managed ← isManaged host
  raiseIf managed exc
  raiseIf (!(refreshed && isSafeControlRetry rt args && serverAllowsRetry exc)) exc
  sleepFor (serverRetryDelay exc)

/-- `self._control_adapter().execute_command(*args)`. -/
def executeOnControl : Run σ ℓ β β := do
  let adapter ← silent host.controlAdapter
  dispatch (host.executeCommand adapter args)

/-- `_execute_control_method`. -/
def executeControlMethod : Run σ ℓ β β := do
  let adapter ← silent host.controlAdapter
  tryCatch (dispatch (host.executeCommand adapter args)) fun exc => do
    prepareReplay rt host args exc
    executeOnControl host args

/-- The loop that leases the endpoint of the route, with a new route for each change of
the topology. A result is that of the control connection. -/
def leaseRoute : ℕ → ρ → Run σ ℓ β (β ⊕ ρ)
  | 0, _ => throw .waiting
  | fuel+1, route => do
    let leased ← tryCatch (some <$> call leaseEvents (host.leasedAdapterForEndpoint route))
      fun exc => if exc = .generationChanged then pure none else throw exc
    match leased with
    | some l =>
      setLease (some l)
      pure (.inr route)
    | none =>
      match ← silent (host.routeData args) with
      | none => .inl <$> executeControlMethod rt host args
      | some route => leaseRoute fuel route

/-- The body of the `try` of an attempt. -/
def attemptBody (fuel : ℕ) (route : ρ) : Run σ ℓ β β := do
  match ← leaseRoute rt host args fuel route with
  | .inl result => pure result
  | .inr route => fun w =>
    match w.lease with
    | some l => dispatch (host.executeProtocolCommand l route) w
    | none => .error (.other "AttributeError") w

/-- The handler of an attempt: a result, or the route of the next attempt. -/
def attemptHandler (attempt : ℕ) (exc : Exn) : Run σ ℓ β (β ⊕ ρ) := do
  raiseIf (attempt ≠ 0) exc
  prepareReplay rt host args exc
  match ← silent (host.routeData args) with
  | none => .inl <$> executeOnControl host args
  | some route => pure (.inr route)

/-- The `finally` of an attempt. -/
def releaseLease : Run σ ℓ β Unit := fun w =>
  match w.lease with
  | some l => call (fun _ => [.release l]) (host.releaseAdapterLease l) w
  | none => .ok () w

def attempt (fuel n : ℕ) (route : ρ) : Run σ ℓ β (β ⊕ ρ) := do
  setLease none
  always (tryCatch (.inl <$> attemptBody rt host args fuel route)
    (attemptHandler rt host args n)) (releaseLease host)

/-- `for attempt in range(2)`. -/
def attempts (fuel : ℕ) : List ℕ → ρ → Run σ ℓ β β
  | [], _ => throw (.other "AssertionError")
  | n::ns, route => do
    match ← attempt rt host args fuel n route with
    | .inl result => pure result
    | .inr route => attempts fuel ns route

/-- `execute_command`. -/
def executeCommand (fuel : ℕ) : Run σ ℓ β β := do
  match ← silent (host.routeData args) with
  | none => executeControlMethod rt host args
  | some route => attempts rt host args fuel [0, 1] route

end Program

end FerricStore.TopologyRetry
