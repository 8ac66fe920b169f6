import FerricStore.DurableSteps
import FerricStore.Transitions

/-!
# Workers on one durable flow

The flow has one current lease. Any number of calls of `step` and `advance` send requests for
it; requests and responses may be lost, a request may be served more than once or after its
caller gave up, and callers may crash. The server extends the lease or applies a commit only for the current
lease, and each commit and each new claim has a larger fencing token.
-/

set_option autoImplicit false

namespace FerricStore.DurableSteps

open Text

variable {C V : Type} [DecidableEq C]

inductive Kind where
  | step (name : Str)
  | advance
  deriving DecidableEq

/-- The arguments of a call. The claim may be any, also one that was never current. -/
structure Params where
  kind : Kind
  job : Claim
  toState : Str

/-- The flow on the server, with the references of its values and what they refer to. -/
structure Flow where
  lease : Bytes
  fencing : ℤ
  runState : Str
  refs : Str → Option Str
  store : Str → Option Bytes

inductive Request where
  | extendLease (lease : Bytes) (fencing : ℤ)
  | stepContinue (lease : Bytes) (fencing : ℤ) (fromState toState : Str)
      (value : Option (Str × Bytes))
  | valueMget (ref : Str)

inductive Reply where
  | record (record : Record)
  | continued (response : Value)
  | values (response : Value)
  | failed (e : TransportError)

/-- How a call ended. A claim that a commit returned is marked. -/
inductive Outcome (V : Type) where
  | returned (claim : Claim) (value : Option V) (committed : Bool)
  | failed (failure : Failure)
  | crashed

/-- What a call waits for: the lease, the committed value, its closure or its commit. -/
inductive Phase (V : Type) where
  | idle
  | checking
  | fetching (record : Record)
  | ready
  | committing (stored : Option V)
  | ended (outcome : Outcome V)

structure Call (V : Type) where
  phase : Phase V
  request : Option Request
  reply : Option Reply

def Call.fail (e : StepError) : Call V := ⟨.ended (.failed (.raised e)), none, none⟩

/-- `commits` are the calls whose commit was applied, with the value it carried; `ran` are
those whose closure ran. -/
structure State (C V : Type) where
  flow : Flow
  call : C → Call V
  commits : List (C × Option (Str × Bytes))
  ran : List C

def State.init (flow : Flow) : State C V := ⟨flow, fun _ => ⟨.idle, none, none⟩, [], []⟩

def State.setCall (s : State C V) (c : C) (call : Call V) : State C V :=
  { s with call := Function.update s.call c call }

def commitRequest (p : Params) (value : Option (Str × Bytes)) : Request :=
  .stepContinue p.job.leaseToken p.job.fencingToken (p.job.runState.getD []) p.toState value

/-- The call up to its first request. -/
def begin (host : Host V) (p : Params) : Call V :=
  match validateClaimedJob p.job p.toState with
  | .error e => .fail e
  | .ok _ => match p.kind with
    | .advance => ⟨.committing none, some (commitRequest p none), none⟩
    | .step name => match durableStepValueName host name with
      | .error e => .fail e
      | .ok _ => ⟨.checking, some (.extendLease p.job.leaseToken p.job.fencingToken), none⟩

/-- The name under which the call keeps its result. -/
def Params.valueName (host : Host V) (p : Params) : Option Str :=
  match p.kind with
  | .advance => none
  | .step name => (durableStepValueName host name).toOption

/-- After the record of the extended lease. -/
def afterRecord (p : Params) (valueName : Str) (record : Record) : Call V :=
  match validateStepPreflight p.job record with
  | .error e => .fail e
  | .ok _ => match valueRef record valueName with
    | .error e => .fail e
    | .ok none => ⟨.ready, none, none⟩
    | .ok (some ref) =>
      if record.runState ≠ some p.toState then
        .fail (.ferricStore "committed durable step did not reach its target state")
      else ⟨.fetching record, some (.valueMget ref), none⟩

inductive ClosureOutcome (V : Type) where
  | value (v : V)
  | awaitable
  | raised (id : ℕ)

/-- After the closure. -/
def afterClosure (host : Host V) (p : Params) (valueName : Str) : ClosureOutcome V → Call V
  | .value v => match encodeStepResult host v with
    | .error e => .fail e
    | .ok (encoded, stored) =>
      ⟨.committing (some stored), some (commitRequest p (some (valueName, encoded))), none⟩
  | .awaitable => .fail (.typeError "sync step() run closure must not return an awaitable")
  | .raised id => .fail (.raised id)

/-- What a call does with a reply that it waits for. -/
def receive (host : Host V) (p : Params) : Phase V → Reply → Option (Call V)
  | .checking, .record record =>
    (p.valueName host).map fun valueName => afterRecord p valueName record
  | .checking, .failed e => some (.fail (.transport e))
  | .fetching record, .values response =>
    some (match committedResult host response with
      | .error e => .fail e
      | .ok v => ⟨.ended (.returned (claimedFromRecord record p.job) (some v) false), none, none⟩)
  | .fetching _, .failed e => some (.fail (.transport e))
  | .committing stored, .continued response =>
    some (match refreshedClaim host p.job response p.toState with
      | .error e => ⟨.ended (.failed (.unknown e)), none, none⟩
      | .ok claim => ⟨.ended (.returned claim stored true), none, none⟩)
  | .committing _, .failed e => some ⟨.ended (.failed (commitFailure e)), none, none⟩
  | _, _ => none

/-- What a call does if its request raises; the request may still be served. -/
def giveUp (e : TransportError) : Phase V → Option (Outcome V)
  | .checking => some (.failed (.raised (.transport e)))
  | .fetching _ => some (.failed (.raised (.transport e)))
  | .committing _ => some (.failed (commitFailure e))
  | _ => none

/-- The flow after a commit: another lease, a larger fencing token, and the value under a
reference that does not refer to anything else. -/
inductive Applied (flow : Flow) (toState : Str) : Option (Str × Bytes) → Flow → Prop where
  | plain (lease : Bytes) (fencing : ℤ) (hlarger : flow.fencing < fencing) :
      Applied flow toState none ⟨lease, fencing, toState, flow.refs, flow.store⟩
  | value (lease : Bytes) (fencing : ℤ) (valueName ref : Str) (bytes : Bytes)
      (hlarger : flow.fencing < fencing) (hfresh : ∀ b, flow.store ref = some b → b = bytes) :
      Applied flow toState (some (valueName, bytes))
        ⟨lease, fencing, toState, Function.update flow.refs valueName (some ref),
          Function.update flow.store ref (some bytes)⟩

/-- The record shows the references of the flow. -/
def Reports (record : Record) (flow : Flow) : Prop :=
  ∀ valueName ref, valueRef record valueName = .ok ref → ref = flow.refs valueName

/-- The values are those of the reference. -/
def Shows (response : Value) (ref : Str) (flow : Flow) : Prop :=
  ∀ b, response = .list [.bytes b] ∨ response = .list [.bytearray b] → flow.store ref = some b

inductive Step (host : Host V) (params : C → Params) : State C V → State C V → Prop where
  | start {s : State C V} {c : C} (hidle : (s.call c).phase = .idle) :
      Step host params s (s.setCall c (begin host (params c)))
  | extend {s : State C V} {c : C} {record : Record}
      (hrequest : (s.call c).request = some (.extendLease s.flow.lease s.flow.fencing))
      (hreports : Reports record s.flow) :
      Step host params s
        (s.setCall c { s.call c with reply := some (.record record) })
  | commit {s : State C V} {c : C} {toState : Str} {value : Option (Str × Bytes)} {flow : Flow}
      {response : Value}
      (hrequest : (s.call c).request =
        some (.stepContinue s.flow.lease s.flow.fencing s.flow.runState toState value))
      (happlied : Applied s.flow toState value flow) :
      Step host params s
        { s.setCall c { s.call c with reply := some (.continued response) } with
          flow := flow
          commits := s.commits++[(c, value)] }
  | fetch {s : State C V} {c : C} {ref : Str} {response : Value}
      (hrequest : (s.call c).request = some (.valueMget ref)) (hshows : Shows response ref s.flow) :
      Step host params s
        (s.setCall c { s.call c with reply := some (.values response) })
  /-- The server rejects a request, or cannot answer it. -/
  | reject {s : State C V} {c : C} {request : Request} {e : TransportError}
      (hrequest : (s.call c).request = some request) :
      Step host params s (s.setCall c { s.call c with reply := some (.failed e) })
  | lose {s : State C V} {c : C} :
      Step host params s (s.setCall c { s.call c with request := none })
  | receive {s : State C V} {c : C} {reply : Reply} {call : Call V}
      (hreply : (s.call c).reply = some reply)
      (hreceive : receive host (params c) (s.call c).phase reply = some call) :
      Step host params s (s.setCall c call)
  | giveUp {s : State C V} {c : C} {e : TransportError} {outcome : Outcome V}
      (hgiveUp : giveUp e (s.call c).phase = some outcome) :
      Step host params s (s.setCall c { s.call c with phase := .ended outcome })
  | run {s : State C V} {c : C} {valueName : Str} {outcome : ClosureOutcome V}
      (hready : (s.call c).phase = .ready)
      (hname : (params c).valueName host = some valueName) :
      Step host params s
        { s.setCall c (afterClosure host (params c) valueName outcome) with ran := s.ran++[c] }
  | crash {s : State C V} {c : C} :
      Step host params s (s.setCall c { s.call c with phase := .ended .crashed })
  /-- A new claim, an expired lease, or a change of the state by others. -/
  | change {s : State C V} {lease : Bytes} {fencing : ℤ} {runState : Str}
      (hfencing : s.flow.fencing ≤ fencing) :
      Step host params s
        { s with flow := { s.flow with lease := lease, fencing := fencing, runState := runState } }

/-- Any interleaving, from a flow without step results. -/
def Reached (host : Host V) (params : C → Params) (s : State C V) : Prop :=
  ∃ flow : Flow, (∀ name valueName, durableStepValueName host name = .ok valueName →
      flow.refs valueName = none) ∧
    Relation.ReflTransGen (Step host params) (.init flow) s

end FerricStore.DurableSteps
