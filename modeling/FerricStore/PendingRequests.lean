import FerricStore.Transitions
import FerricStore.ProtocolCommand

/-!
# The registry of pending requests

A request that was sent waits for its response under its id: its future, the size
it takes of the byte budget, the connection it was sent on, and optionally the
identity its response must have, a count of items, a trace and a deadline. Each
operation runs under the state lock, so it is one step. Futures, sockets, traces
and the exceptions of callers are opaque.
-/

set_option autoImplicit false

namespace FerricStore.PendingRequests

structure PendingRequestBudget where
  maxRequests : Option ℕ
  maxBytes : Option ℕ
  sizes : Dict ℕ ℕ := []
  totalBytes : ℤ := 0

inductive RegistryError where
  | runtimeError (message : String)
  | valueError (message : String)
  | ferricStore (message : String)
  deriving DecidableEq, Repr

namespace PendingRequestBudget

/-- `PendingRequestBudget.reserve`, a full budget as the registry shows it. -/
def reserve (b : PendingRequestBudget) (requestId : ℕ) :
    Except RegistryError PendingRequestBudget :=
  if Dict.contains b.sizes requestId then
    .error (.runtimeError ("duplicate pending protocol request_id: "++toString requestId))
  else match b.maxRequests with
    | some limit =>
      if limit ≤ b.sizes.length then .error (.ferricStore
        ("protocol pending requests exceed max_inflight_requests="++toString limit))
      else .ok { b with sizes := Dict.set b.sizes requestId 0 }
    | none => .ok { b with sizes := Dict.set b.sizes requestId 0 }

def resize (b : PendingRequestBudget) (requestId size : ℕ) (total : ℤ) :
    PendingRequestBudget :=
  { b with sizes := Dict.set b.sizes requestId size, totalBytes := total }

/-- `PendingRequestBudget.set_size`, with the errors of `SyncPendingRequestRegistry.set_size`. -/
def setSize (b : PendingRequestBudget) (requestId : ℕ) (size : ℤ) :
    Except RegistryError PendingRequestBudget :=
  if size < 0 then .error (.valueError "pending request size must be non-negative")
  else match Dict.get? b.sizes requestId with
    | none => .error (.ferricStore "protocol request timed out")
    | some previous =>
      let total := b.totalBytes-previous+size
      match b.maxBytes with
      | some limit =>
        if total > limit then .error (.ferricStore
          ("protocol pending request bytes exceed max_pending_request_bytes="++toString limit))
        else .ok (b.resize requestId size.toNat total)
      | none => .ok (b.resize requestId size.toNat total)

def release (b : PendingRequestBudget) (requestId : ℕ) : PendingRequestBudget :=
  match Dict.get? b.sizes requestId with
  | none => b
  | some size =>
    { b with sizes := Dict.pop b.sizes requestId, totalBytes := b.totalBytes-size }

end PendingRequestBudget

structure ResponseIdentity where
  laneId : ℕ
  opcode : ℕ
  requestId : ℕ
  mayMutate : Option Bool
  deriving DecidableEq, Repr

/-- A generation of the connection and its socket. -/
abbrev Binding (σ : Type) := ℕ × Option σ

/-- The tables of the registry, with futures `φ`, sockets `σ` and traces `τ`. -/
structure Registry (φ σ τ : Type) where
  budget : PendingRequestBudget
  pending : Dict ℕ φ := []
  bindings : Dict ℕ (Binding σ) := []
  identities : Dict ℕ ResponseIdentity := []
  itemCounts : Dict ℕ ℕ := []
  traces : Dict ℕ τ := []
  deadlines : List ℕ := []

def nonMutatingCommands : List String :=
  ["AUTH", "BACKPRESSURE", "CLIENT.INFO", "CLIENT.SETNAME", "CLUSTER.FEATURES",
    "CLUSTER.HEALTH", "CLUSTER.KEYSLOT", "CLUSTER.ROLE", "CLUSTER.SLOTS", "CLUSTER.STATS",
    "CLUSTER.STATUS", "FERRICSTORE.HOTNESS", "FERRICSTORE.KEY_INFO", "FERRICSTORE.METRICS",
    "FLOW.APPROVAL.GET", "FLOW.APPROVAL.LIST", "FLOW.ATTRIBUTE_VALUES", "FLOW.ATTRIBUTES",
    "FLOW.BUDGET.GET", "FLOW.BUDGET.LIST", "FLOW.CIRCUIT.GET", "FLOW.EFFECT.GET", "FLOW.GET",
    "FLOW.GOVERNANCE.LEDGER", "FLOW.GOVERNANCE.OVERVIEW", "FLOW.HISTORY", "FLOW.INFO",
    "FLOW.LIMIT.GET", "FLOW.LIMIT.LIST", "FLOW.POLICY.GET", "FLOW.QUERY.INDEXES",
    "FLOW.SCHEDULE.GET", "FLOW.SCHEDULE.LIST", "FLOW.QUERY", "FLOW.STATS", "FLOW.VALUE.MGET",
    "GET", "HELLO", "HGET", "HGETALL", "HMGET", "LRANGE", "MGET", "OPTIONS", "PING", "QUIT",
    "ROUTE", "SHARDS", "SISMEMBER", "SMEMBERS", "STARTUP", "SUBSCRIBE_EVENTS",
    "UNSUBSCRIBE_EVENTS", "WINDOW_UPDATE", "ZRANGE", "ZSCORE"]

/-- `request_may_mutate` of a request whose payload is not known. -/
def requestMayMutate (op : ℕ) : Bool :=
  op = opcode "PIPELINE" ∨ op ∉ nonMutatingCommands.filterMap (Dict.get? opcodes)

/-- What an expired or failed request is resolved with; `ε` are the callers' exceptions. -/
inductive Failure (ε : Type) where
  | timedOut
  | raised (exc : ε)
  | outcomeUnknown (message : String) (cause : Option ε)
  | retryable (message : String) (cause : Option ε)
  deriving DecidableEq, Repr

/-- `request_outcome_error`; the cause of a timeout is `none`. -/
def requestOutcomeError {ε : Type} (identity : ResponseIdentity) (cause : Option ε)
    (message : String) : Failure ε :=
  if identity.mayMutate.getD (requestMayMutate identity.opcode) then
    .outcomeUnknown (message++"; mutation outcome is unknown") cause
  else .retryable message cause

def expireError {ε : Type} : Option ResponseIdentity → Failure ε
  | none => .timedOut
  | some identity => requestOutcomeError identity none "protocol request timed out"

def failError {ε : Type} (exc : ε) : Option ResponseIdentity → Failure ε
  | none => .raised exc
  | some identity => requestOutcomeError identity (some exc) "protocol connection closed"

/-- The arguments of `register`; without a binding the current connection is taken, and
`schedules` tells whether the deadline scheduler takes the deadline. -/
structure Registration (φ σ τ : Type) where
  requestId : ℕ
  future : φ
  expectedCollectionItems : Option ℕ
  clientTrace : Option τ
  binding : Option (Binding σ)
  current : Binding σ
  expires : Bool
  schedules : Bool
  responseIdentity : Option ResponseIdentity

def setIfGiven {β : Type} (d : Dict ℕ β) (requestId : ℕ) : Option β → Dict ℕ β
  | some v => Dict.set d requestId v
  | none => d

namespace Registry

variable {φ σ τ : Type}

/-- What `register` has written when it comes to the deadline. -/
def enter (r : Registry φ σ τ) (budget : PendingRequestBudget) (a : Registration φ σ τ) :
    Registry φ σ τ :=
  { r with
    budget := budget
    pending := Dict.set r.pending a.requestId a.future
    bindings := Dict.set r.bindings a.requestId (a.binding.getD a.current)
    identities := setIfGiven r.identities a.requestId a.responseIdentity
    itemCounts := setIfGiven r.itemCounts a.requestId a.expectedCollectionItems
    traces := setIfGiven r.traces a.requestId a.clientTrace }

/-- The rollback of `register`. -/
def rollback (r : Registry φ σ τ) (requestId : ℕ) : Registry φ σ τ :=
  { r with
    pending := Dict.pop r.pending requestId
    bindings := Dict.pop r.bindings requestId
    identities := Dict.pop r.identities requestId
    itemCounts := Dict.pop r.itemCounts requestId
    traces := Dict.pop r.traces requestId
    budget := r.budget.release requestId }

/-- `register`: an exception leaves a state of its own behind. -/
def register (r : Registry φ σ τ) (a : Registration φ σ τ) :
    Option RegistryError × Registry φ σ τ :=
  match r.budget.reserve a.requestId with
  | .error e => (some e, r)
  | .ok budget =>
    if a.expires && !a.schedules then
      (some (.runtimeError "request deadline scheduler is closed"),
        (r.enter budget a).rollback a.requestId)
    else if a.expires then
      (none, { r.enter budget a with
        deadlines := a.requestId::r.deadlines.filter fun k => k ≠ a.requestId })
    else (none, r.enter budget a)

def setSize (r : Registry φ σ τ) (requestId : ℕ) (size : ℤ) :
    Option RegistryError × Registry φ σ τ :=
  match r.budget.setSize requestId size with
  | .error e => (some e, r)
  | .ok budget => (none, { r with budget := budget })

/-- `release_locked`. -/
def releaseLocked (r : Registry φ σ τ) (requestId : ℕ) : Registry φ σ τ :=
  { r with
    budget := r.budget.release requestId
    deadlines := r.deadlines.filter fun k => k ≠ requestId }

/-- A request leaves the tables; its item count stays when `keepCount` is set. -/
def forget (keepCount : Bool) (r : Registry φ σ τ) (requestId : ℕ) : Registry φ σ τ :=
  releaseLocked { r with
    pending := Dict.pop r.pending requestId
    bindings := Dict.pop r.bindings requestId
    identities := Dict.pop r.identities requestId
    itemCounts := if keepCount then r.itemCounts else Dict.pop r.itemCounts requestId
    traces := Dict.pop r.traces requestId } requestId

variable [DecidableEq φ] [DecidableEq σ]

def discard (r : Registry φ σ τ) (requestId : ℕ) (expectedFuture : Option φ) :
    Option φ × Registry φ σ τ :=
  let future := Dict.get? r.pending requestId
  if expectedFuture.isSome && future ≠ expectedFuture then (none, r)
  else (future, r.forget false requestId)

/-- `take_response`: a response from another socket is not for this request. -/
def takeResponse (r : Registry φ σ τ) (requestId : ℕ) (sock : Option σ) :
    Option φ × Registry φ σ τ :=
  if ((Dict.get? r.bindings requestId).any fun b => b.2.isSome && b.2 ≠ sock) then (none, r)
  else (Dict.get? r.pending requestId, r.forget true requestId)

def expire {ε : Type} (r : Registry φ σ τ) (requestId : ℕ) :
    List (φ × Failure ε) × Registry φ σ τ :=
  let identity := Dict.get? r.identities requestId
  let removed := r.discard requestId none
  (removed.1.toList.map fun future => (future, expireError identity), removed.2)

/-- A request of another generation is passed over. -/
def bound (r : Registry φ σ τ) (generation : Option ℕ) (requestId : ℕ) : Bool :=
  generation.all fun g => (Dict.get? r.bindings requestId).all fun b => b.1 = g

def failOne (generation : Option ℕ)
    (acc : List (φ × Option ResponseIdentity) × Registry φ σ τ) (entry : ℕ × φ) :
    List (φ × Option ResponseIdentity) × Registry φ σ τ :=
  if acc.2.bound generation entry.1 then
    (acc.1++[(entry.2, Dict.get? acc.2.identities entry.1)], acc.2.forget false entry.1)
  else acc

def fail {ε : Type} (r : Registry φ σ τ) (exc : ε) (generation : Option ℕ) :
    List (φ × Failure ε) × Registry φ σ τ :=
  let acc := r.pending.foldl (failOne generation) ([], r)
  (acc.1.map fun p => (p.1, failError exc p.2), acc.2)

end Registry
end FerricStore.PendingRequests
