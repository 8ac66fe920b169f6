import FerricStore.Utf8
import FerricStore.Value

/-!
# Durable workflow steps

`step` checks a claim by extending its lease, returns the committed result of a step that the
record already names, and otherwise runs the caller's closure and commits its result with
`FLOW.STEP_CONTINUE`. `advance` commits without a value. The functions here are the parts
between the requests; a request that raises is sorted into rejected and unknown.
-/

set_option autoImplicit false

namespace FerricStore.DurableSteps

open Text

/-- What `execute_command` raises: an unknown outcome, an `HttpError`, another
`FerricStoreError`, a `TypeError`, `ValueError` or `OverflowError`, or anything else. -/
inductive TransportError where
  | outcomeUnknown (raw : Option ℕ)
  | http (statusCode : Option ℕ) (errorCode : Option String) (safeToRetry : Bool)
  | ferricStore (id : ℕ)
  | argument (id : ℕ)
  | other (id : ℕ)
  deriving DecidableEq, Repr

inductive StepError where
  | typeError (message : String)
  | valueError (message : String)
  | ferricStore (message : String)
  | transport (e : TransportError)
  /-- Raised by the closure, the codec or the parser of a response. -/
  | raised (id : ℕ)
  deriving DecidableEq, Repr

def rejectedHttpStatuses : List ℕ :=
  [400, 401, 403, 404, 405, 406, 411, 413, 414, 415, 422, 426, 431]

def rejectedErrorCodes : List String :=
  ["auth", "unauthorized", "noperm", "forbidden", "bad_request", "invalid_command",
    "invalid_request", "not_found", "flow_not_found", "stale_lease", "wrong_state", "conflict",
    "request_too_large"]

/-- `durable_mutation_outcome_is_unknown` on an `HttpError`. -/
def httpOutcomeIsUnknown (statusCode : Option ℕ) (errorCode : Option String)
    (safeToRetry : Bool) : Bool :=
  if statusCode = some 408 ∨ errorCode = some "request_timeout" then true
  else if safeToRetry then false
  else if errorCode.any rejectedErrorCodes.contains then false
  else !statusCode.any rejectedHttpStatuses.contains

/-- How a call ends that does not return. -/
inductive Failure where
  | raised (e : StepError)
  | unknown (original : StepError)
  deriving DecidableEq, Repr

/-- `step_outcome_unknown` -/
def unknownOutcome : TransportError → Failure
  | .outcomeUnknown (some raw) => .unknown (.raised raw)
  | e => .unknown (.transport e)

/-- The exception handlers around `FLOW.STEP_CONTINUE`. -/
def commitFailure : TransportError → Failure
  | .outcomeUnknown raw => unknownOutcome (.outcomeUnknown raw)
  | .http statusCode errorCode safeToRetry =>
    if httpOutcomeIsUnknown statusCode errorCode safeToRetry then
      unknownOutcome (.http statusCode errorCode safeToRetry)
    else .raised (.transport (.http statusCode errorCode safeToRetry))
  | .ferricStore id => .raised (.transport (.ferricStore id))
  | .argument id => .raised (.transport (.argument id))
  | .other id => unknownOutcome (.other id)

/-- A `ClaimedFlow`, or the fields of a `FlowRecord` that it shares with one. -/
structure Claim where
  id : Str
  leaseToken : Bytes
  fencingToken : ℤ
  partitionKey : Option Key
  type : Str
  state : Str
  runState : Option Str
  payload : Value
  attributes : Option Value

/-- The record that `FLOW.EXTEND_LEASE` returns, with its parsed and its raw references. -/
structure Record extends Claim where
  valueRefs : Option (List (Key × Value))
  raw : Option (List (Key × Value))

/-- The codec of the client, the hash and the whitespace of names, and
`ClaimedFlow.from_resp`. -/
structure Host (V : Type) where
  encode : V → Except StepError Bytes
  decode : Bytes → Except StepError V
  digest : Bytes → Str
  isSpace : CodePoint → Bool
  fromResp : Value → Except StepError Claim

variable {V : Type}

def nonEmpty : Option Str → Bool
  | some s => !s.isEmpty
  | none => false

def validateClaimedJob (job : Claim) (toState : Str) : Except StepError Unit :=
  if job.id.isEmpty then .error (.valueError "job.id must be non-empty")
  else if job.leaseToken.isEmpty then .error (.valueError "job.lease_token must be non-empty")
  else if job.fencingToken ≤ 0 then .error (.valueError "job.fencing_token must be positive")
  else if !job.state.isEmpty && job.state ≠ lit "running" then
    .error (.valueError "job.state must be running")
  else if !nonEmpty job.runState then .error (.valueError "job.run_state must be non-empty")
  else if toState.isEmpty then .error (.valueError "to_state must be a non-empty string")
  else .ok ()

def stepValuePrefix : Str := lit "__ferricstore_step__:sha256:"

def durableStepValueName (host : Host V) (name : Str) : Except StepError Str :=
  if name.all host.isSpace then .error (.valueError "step name must be a non-empty string")
  else match encode name with
    | none => .error (.valueError "step name must contain valid Unicode")
    | some b => .ok (stepValuePrefix++host.digest b)

def textOr (s : Str) (fallback : Str) : Str := if s.isEmpty then fallback else s

def optionOr (s fallback : Option Str) : Option Str := if nonEmpty s then s else fallback

def claimedFromRecord (record : Record) (fallback : Claim) : Claim where
  id := record.id
  leaseToken := record.leaseToken
  fencingToken := record.fencingToken
  partitionKey := record.partitionKey
  type := textOr record.type fallback.type
  state := textOr record.state fallback.state
  runState := optionOr record.runState fallback.runState
  payload := if record.payload.isNone then fallback.payload else record.payload
  attributes := record.attributes.or fallback.attributes

def validateStepPreflight (job : Claim) (record : Record) : Except StepError Unit :=
  if record.id ≠ job.id ∨ record.partitionKey ≠ job.partitionKey then
    .error (.ferricStore "FLOW.EXTEND_LEASE returned a different workflow identity")
  else if record.leaseToken ≠ job.leaseToken ∨ record.fencingToken ≠ job.fencingToken then
    .error (.ferricStore "FLOW.EXTEND_LEASE returned a different workflow claim")
  else if record.state ≠ lit "running" ∨ record.runState ≠ job.runState then
    .error (.ferricStore "FLOW.EXTEND_LEASE returned a different workflow state")
  else .ok ()

def hasField (entries : List (Key × Value)) (name : String) : Bool :=
  Dict.contains entries (.str (lit name)) || Dict.contains entries (.bytes (utf8 (lit name)))

/-- The checks of `refreshed_claim` before the response is parsed. -/
def checkResponse : Value → Except StepError Unit
  | .list _ | .tuple _ => .ok ()
  | .dict entries =>
    if hasField entries "state" && hasField entries "run_state" then .ok ()
    else .error (.ferricStore "FLOW.STEP_CONTINUE returned an unexpected workflow state")
  | _ => .error (.ferricStore "FLOW.STEP_CONTINUE returned an invalid workflow response")

/-- The checks of `refreshed_claim` on the parsed claim. -/
def checkFresh (previous fresh : Claim) (toState : Str) : Except StepError Unit :=
  if fresh.id ≠ previous.id ∨ fresh.partitionKey ≠ previous.partitionKey then
    .error (.ferricStore "FLOW.STEP_CONTINUE returned a different workflow identity")
  else if fresh.leaseToken.isEmpty ∨ fresh.leaseToken = previous.leaseToken then
    .error (.ferricStore "FLOW.STEP_CONTINUE did not refresh the workflow lease")
  else if fresh.fencingToken ≤ previous.fencingToken then
    .error (.ferricStore "FLOW.STEP_CONTINUE did not increase the workflow fencing token")
  else if fresh.state ≠ lit "running" ∨ fresh.runState.any (· ≠ toState) then
    .error (.ferricStore "FLOW.STEP_CONTINUE returned an unexpected workflow state")
  else .ok ()

def refreshedClaim (host : Host V) (previous : Claim) (response : Value) (toState : Str) :
    Except StepError Claim := do
  checkResponse response
  let fresh ← host.fromResp response
  checkFresh previous fresh toState
  pure { fresh with
    type := textOr fresh.type previous.type
    state := textOr fresh.state previous.state
    runState := optionOr fresh.runState (some toState)
    payload := if fresh.payload.isNone then previous.payload else fresh.payload
    attributes := fresh.attributes.or previous.attributes }

def isMapping : Value → Bool
  | .dict _ => true
  | _ => false

/-- The reference under a name: text, its bytes, or a mapping that has it. -/
def refText (reference : Value) : Except StepError Str :=
  let raw := match reference with
    | .dict fields =>
      let named := (Dict.get? fields (.str (lit "ref"))).getD .none
      if named.truthy then named else (Dict.get? fields (.bytes (utf8 (lit "ref")))).getD .none
    | v => v
  let invalid := StepError.ferricStore "committed durable step has an invalid result reference"
  match raw with
  | .str s => if s.isEmpty then .error invalid else .ok s
  | .bytes b => match decode b with
    | none => .error (.valueError "invalid UTF-8")
    | some s => if s.isEmpty then .error invalid else .ok s
  | _ => .error invalid

def rawRefs (raw : List (Key × Value)) : Value :=
  ((Dict.get? raw (.str (lit "value_refs"))).or
    (Dict.get? raw (.bytes (utf8 (lit "value_refs"))))).getD .none

def valueRef (record : Record) (name : Str) : Except StepError (Option Str) :=
  if record.raw.any fun raw => !(rawRefs raw).isNone && !isMapping (rawRefs raw) then
    .error (.ferricStore "FLOW.EXTEND_LEASE returned invalid value_refs")
  else match Dict.get? (record.valueRefs.getD []) (.str name) with
    | none => .ok none
    | some reference => (refText reference).map some

def decodeCommittedResult (host : Host V) : Value → Except StepError V
  | .none => .error (.ferricStore "committed durable step result is missing or omitted")
  | .dict _ => .error (.ferricStore "committed durable step result is missing or omitted")
  | .bytes b => host.decode b
  | .bytearray b => host.decode b
  | _ => .error (.ferricStore "committed durable step result is invalid")

/-- `require_batch_items(response, 1, …)`, then the result in it. -/
def committedResult (host : Host V) : Value → Except StepError V
  | .list [stored] => decodeCommittedResult host stored
  | .list _ => .error (.ferricStore "FLOW.VALUE.MGET durable step result returned other items")
  | _ => .error (.ferricStore "FLOW.VALUE.MGET durable step result must return a list")

/-- `encode_step_result` returns the bytes and what they are read back as. -/
def encodeStepResult (host : Host V) (value : V) : Except StepError (Bytes × V) := do
  let encoded ← host.encode value
  let stored ← host.decode encoded
  pure (encoded, stored)

theorem encodeStepResult_ok {host : Host V} {value stored : V} {encoded : Bytes}
    (h : encodeStepResult host value = .ok (encoded, stored)) :
    host.decode encoded = .ok stored := by
  obtain ⟨b, -, h⟩ := except_bind_eq_ok h
  obtain ⟨v, hv, h⟩ := except_bind_eq_ok h
  cases h
  exact hv

theorem refreshedClaim_ok {host : Host V} {previous claim : Claim} {response : Value}
    {toState : Str} (h : refreshedClaim host previous response toState = .ok claim) :
    claim.id = previous.id ∧ claim.partitionKey = previous.partitionKey ∧
      previous.fencingToken < claim.fencingToken := by
  obtain ⟨u, -, h⟩ := except_bind_eq_ok h
  obtain ⟨fresh, -, h⟩ := except_bind_eq_ok h
  obtain ⟨u, hcheck, h⟩ := except_bind_eq_ok h
  cases h
  unfold checkFresh at hcheck
  split_ifs at hcheck with hidentity hlease hfencing hstate
  push Not at hidentity
  exact ⟨hidentity.1, hidentity.2, not_le.mp hfencing⟩

theorem validateStepPreflight_ok {job : Claim} {record : Record}
    (h : validateStepPreflight job record = .ok ()) :
    record.id = job.id ∧ record.partitionKey = job.partitionKey := by
  unfold validateStepPreflight at h
  split_ifs at h with hidentity
  push Not at hidentity
  exact hidentity

/-- Names of steps differ where the hash does not collide. -/
theorem durableStepValueName_inj {host : Host V} (hdigest : Function.Injective host.digest)
    {a b valueName : Str} (ha : durableStepValueName host a = .ok valueName)
    (hb : durableStepValueName host b = .ok valueName) : a = b := by
  have hread : ∀ {s : Str}, durableStepValueName host s = .ok valueName →
      encodable s = true ∧ valueName = stepValuePrefix++host.digest (utf8 s) := by
    intro s hs
    unfold durableStepValueName encode at hs
    split_ifs at hs with hspace hencodable
    cases hs
    exact ⟨hencodable, rfl⟩
  obtain ⟨hea, hva⟩ := hread ha
  obtain ⟨heb, hvb⟩ := hread hb
  have hutf8 : utf8 a = utf8 b := hdigest (List.append_cancel_left (hva.symm.trans hvb))
  have hdecode := decode_utf8 hea
  rw [hutf8, decode_utf8 heb] at hdecode
  exact (Option.some.inj hdecode).symm

end FerricStore.DurableSteps
