import FerricStore.CompactDispatch
import FerricStore.FlowQueryResults
import FerricStore.Gathering
import FerricStore.HttpResults
import FerricStore.PendingRequests

/-!
# Replies to a batch

A batch travels as one request whose reply lists an envelope for each command, as groups of
commands of one kind whose replies are joined, or as one request for each command. An envelope
is a pair or a map with a status and a value. The entry points take the envelopes apart by
rules of their own.
-/

set_option autoImplicit false

namespace FerricStore.BatchReplies
open Text RoutingTopology HttpResults

def statusOk : ℕ := 0
def statusBusy : ℕ := 4

/-- `_KNOWN_RESPONSE_STATUSES`. -/
def knownResponseStatuses : List ℕ := [0, 1, 2, 3, 4, 5, 6]

/-- `ProtocolResponse`, as far as its value is read. -/
structure Response where
  opcode : ℕ
  status : ℕ
  value : Value

/-- `_RetryMetadata`. -/
structure Retry where
  retryable : Option Bool
  safeToRetry : Option Bool
  retryAfterMs : Option ℤ
  deriving DecidableEq, Repr

inductive ReplyError where
  | ferricStore (message : Str) (raw : Value) (retry : Retry)
  | overloaded (message : Str) (raw : Value) (reason : Option Str) (retry : Retry)
  | server (kind : ServerErrorKind) (message : Str) (raw : Value) (retry : Retry)
  /-- A status that the protocol does not know; the cause holds the response. -/
  | outcomeUnknown (message : Str) (raw : Value)
  /-- An error of the interpreter. -/
  | raised (e : Err)

def Retry.unset : Retry := ⟨none, none, none⟩

/-- An interpreter for ASCII text without the two patterns, on which examples run. -/
def asciiInterpreter : Interpreter := { Runtime.ascii with
  intField := fun _ => none
  strField := fun _ => none }

def raise {α : Type} : Except Err α → Except ReplyError α
  | .ok a => .ok a
  | .error e => .error (.raised e)

/-- `_optional_text`. -/
def optionalText (rt : Interpreter) (mapping : Value) (key : String) :
    Except ReplyError (Option Str) :=
  match mapGet mapping [key] with
  | .none => .ok none
  | v => raise (some <$> rt.text v)

/-- `_error_message`. -/
def errorMessage (rt : Interpreter) (value : Value) : Except ReplyError Str := do
  match ← optionalText rt value "message" with
  | some message => pure message
  | none => raise (rt.text value)

/-- `_optional_bool_field`. -/
def optionalBoolField (value : Value) (key : String) : Option Bool :=
  match mapGet value [key] with
  | .bool b => some b
  | _ => none

/-- `_retry_after_ms`. -/
def retryAfterMs (value : Value) : Except ReplyError (Option ℤ) :=
  match mapGet value ["retry_after_ms"] with
  | .none => .ok none
  | .int n =>
    if 0 ≤ n ∧ n ≤ 2^64-1 then .ok (some n)
    else .error (.ferricStore (lit
      "invalid server response: retry_after_ms must be an unsigned 64-bit integer") value
      ⟨some false, some false, none⟩)
  | _ => .error (.ferricStore (lit
      "invalid server response: retry_after_ms must be an unsigned 64-bit integer") value
      ⟨some false, some false, none⟩)

/-- `classify_server_error`. -/
def classifyError (rt : Interpreter) (message : Str) (raw : Value) (retry : Retry) : ReplyError :=
  let lower := rt.lowerText message
  if mentions ["overloaded", "busy"] lower then
    .overloaded message raw (rt.strField lower)
      { retry with retryAfterMs := retry.retryAfterMs.or (rt.intField lower) }
  else match errorKind lower with
    | .stalePolicyGeneration =>
      .server .stalePolicyGeneration message raw ⟨some false, some false, none⟩
    | .ferricStore => .ferricStore message raw retry
    | kind => .server kind message raw retry

/-- The message and the retry fields of an error, read in this order. -/
def errorDetails (rt : Interpreter) (value : Value) : Except ReplyError (Str × Retry) := do
  let message ← errorMessage rt value
  let retryAfter ← retryAfterMs value
  pure (message, ⟨optionalBoolField value "retryable", optionalBoolField value "safe_to_retry",
    retryAfter⟩)

/-- `_response_value`. -/
def responseValue (rt : Interpreter) (r : Response) : Except ReplyError Value :=
  if r.status = statusOk then .ok r.value
  else if r.status ∉ knownResponseStatuses then
    let message := lit ("unknown native protocol status "++toString r.status)
    if PendingRequests.requestMayMutate r.opcode then
      .error (.outcomeUnknown (message++lit "; mutation outcome is unknown") r.value)
    else .error (.ferricStore message r.value ⟨some true, some true, none⟩)
  else do
    let (message, retry) ← errorDetails rt r.value
    if r.status = statusBusy then
      let reason ← optionalText rt r.value "reason"
      throw (.overloaded message r.value reason retry)
    else throw (classifyError rt message r.value retry)

/-! ### Envelopes -/

/-- `_status_text`. -/
def statusText (value : Value) : Except ReplyError (Option Str) :=
  match value with
  | .str s => .ok (some s)
  | .bytes b =>
    match decode b with
    | some s => .ok (some s)
    | none =>
      .error (.ferricStore (lit "protocol PIPELINE status is not valid UTF-8") value .unset)
  | _ => .ok none

/-- `status or "error"`. -/
def orError : Option Str → Str
  | some (c::s) => c::s
  | _ => lit "error"

def asPair : Value → Option (Value × Value)
  | .list [a, b] | .tuple [a, b] => some (a, b)
  | _ => none

/-- The status and the value of an envelope. -/
def openEnvelope (rt : Interpreter) (item : Value) : Except ReplyError (Str × Value) :=
  match asPair item with
  | some (a, b) => do
    let status ← statusText a
    pure (orError status, b)
  | none =>
    match item with
    | .dict _ => do
      let status ← optionalText rt item "status"
      pure (orError status, mapGet item ["value"])
    | _ => .error (.ferricStore (lit "protocol PIPELINE item is not a map or status pair") item
        .unset)

/-- What an envelope with another status than `ok` raises. -/
def itemError (rt : Interpreter) (status : Str) (value raw : Value) : Except ReplyError Value := do
  let (message, retry) ← errorDetails rt value
  if status = lit "busy" then throw (.overloaded message raw none retry)
  else throw (classifyError rt message raw retry)

/-- `_batch_item_value`. -/
def batchItemValue (rt : Interpreter) (item : Value) : Except ReplyError Value := do
  let (status, value) ← openEnvelope rt item
  if status = lit "ok" then pure value else itemError rt status value item

/-- `_pipeline_status`. -/
def pipelineStatus (rt : Interpreter) (item : Value) : Option Str :=
  let status := match asPair item with
    | some (a, _) => a
    | none =>
      match item with
      | .dict es => ((Dict.get? es (.str (lit "status"))).or
          (Dict.get? es (.bytes (utf8 (lit "status"))))).getD .none
      | _ => .none
  match status with
  | .str s => some (rt.lowerText s)
  | _ => none

/-- `is_pipeline_status_batch`, also called `_pipeline_pair_list`. -/
def isPipelineStatusBatch (rt : Interpreter) (items : List Value) : Bool :=
  items.all fun item => pipelineStatus rt item ∈
    [some (lit "ok"), some (lit "busy"), some (lit "error")]

/-- `_ok_scalar`. -/
def okScalar (rt : Interpreter) : Value → Bool
  | .bytes b => lowerBytes b = utf8 (lit "ok")
  | .str s => rt.lowerText s = lit "ok"
  | _ => false

/-! ### The reply to a whole batch -/

def refuse {α : Type} (message : String) (raw : Value) : Except ReplyError α :=
  .error (.ferricStore (lit message) raw .unset)

/-- `require_batch_items`. -/
def requireBatchItems (value : Value) (expected : ℕ) (operation : String) :
    Except ReplyError (List Value) :=
  match value with
  | .list items =>
    if items.length ≠ expected then
      refuse (operation++" returned "++toString items.length++" items; expected "++
        toString expected) value
    else .ok items
  | _ => refuse (operation++" must return a list") value

/-- The generic path of `_execute_batch`, once the response is there. -/
def executeBatch (rt : Interpreter) (count : ℕ) (response : Response) :
    Except ReplyError (List Value) :=
  if count = 0 then .ok [] else do
    let value ← responseValue rt response
    let items ← requireBatchItems value count "protocol PIPELINE"
    items.mapM (batchItemValue rt)

/-- The callback of `_complete_batch_future`. -/
def completeBatchFuture (rt : Interpreter) (count : ℕ) (allowScalarOk : Bool)
    (response : Response) : Except ReplyError (List Value) := do
  let value ← responseValue rt response
  if allowScalarOk && okScalar rt value then pure (List.replicate count value)
  else match value with
    | .list items =>
      if items.length ≠ count then refuse "protocol PIPELINE returned invalid result" value
      else if isPipelineStatusBatch rt items then items.mapM (batchItemValue rt)
      else pure items
    | _ => refuse "protocol PIPELINE returned invalid result" value

/-- The generic path of `_submit_batch`, once the response is there. -/
def submitBatch (rt : Interpreter) (count : ℕ) (response : Response) :
    Except ReplyError (List Value) :=
  if count = 0 then .ok [] else completeBatchFuture rt count false response

/-! ### One future for each command -/

/-- The callback of `_pipeline_item_futures`: what each future is completed with. -/
def pipelineItemFutures (rt : Interpreter) (count : ℕ) (response : Response) :
    List (Except ReplyError Value) :=
  let decoded : Except ReplyError (List Value) := do
    let value ← responseValue rt response
    match value with
    | .list items =>
      if items.length ≠ count then refuse "protocol PIPELINE returned invalid result" value
      else items.mapM (batchItemValue rt)
    | _ => refuse "protocol PIPELINE returned invalid result" value
  match decoded with
  | .ok values => values.map .ok
  | .error e => List.replicate count (.error e)

/-- `_value_future` of every command. -/
def valueFutures (rt : Interpreter) (responses : List Response) : List (Except ReplyError Value) :=
  responses.map (responseValue rt)

/-! ### Groups of commands of one kind -/

/-- `_flow_many_group_values`. -/
def flowManyGroupValues (rt : Interpreter) (value : Value) (expectedCount : ℕ) :
    Except ReplyError (List Value) :=
  if okScalar rt value then .ok (List.replicate expectedCount value)
  else match value with
    | .list items =>
      if items.length ≠ expectedCount then
        refuse "protocol Flow many returned invalid result" value
      else if isPipelineStatusBatch rt items then items.mapM (batchItemValue rt)
      else .ok items
    | _ => refuse "protocol Flow many returned invalid result" value

/-- The reply to a group of so many commands. -/
def groupReply (rt : Interpreter) (count : ℕ) (response : Response) :
    Except ReplyError (List Value) := do
  let value ← responseValue rt response
  flowManyGroupValues rt value count

/-- What `_submit_flow_many_batch` makes of the groups once all are there. -/
def mergeGroups (expectedCount : ℕ) (groups : List (List Value)) :
    Except ReplyError (List Value) :=
  let merged := groups.flatten
  if merged.length ≠ expectedCount then
    refuse "protocol Flow many returned invalid result" (.list merged)
  else .ok merged

/-- The future of `_submit_flow_many_batch` after the responses in `arrivals`, each with the
number of its group. -/
def submitFlowManyBatch (rt : Interpreter) (counts : List ℕ) (expectedCount : ℕ)
    (arrivals : List (ℕ × Response)) : Option (Except ReplyError (List Value)) :=
  (Gathering.run counts.length (mergeGroups expectedCount)
    (arrivals.map fun a => (a.1, groupReply rt (counts.getD a.1 0) a.2))).outcome

/-- The groups of `_execute_batch`, asked one after the other. -/
def executeFlowMany (rt : Interpreter) (counts : List ℕ) (responses : List Response) :
    Except ReplyError (List Value) := do
  let groups ← (counts.zip responses).mapM fun g => groupReply rt g.1 g.2
  pure groups.flatten

end FerricStore.BatchReplies
