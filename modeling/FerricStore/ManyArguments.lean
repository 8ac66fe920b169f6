import FerricStore.FlowManyPayloads
import FerricStore.MutationRoundTrip

/-!
# The arguments of mutations of many flows

Completing, retrying, failing, moving and cancelling many flows write the partition
of the batch or the word `MIXED`, their options, and then the items. In a mixed batch
every item brings its own partition. A call holds the arguments of all of them; each
builder takes its own. The client sends nothing for an empty list of items, the
builders do not ask.
-/

set_option autoImplicit false

namespace FerricStore.ManyArguments
open Text FlowOptions FlowCommands FlowManyPayloads MutationArguments

structure ClaimedFlow where
  id : Str
  leaseToken : Bytes
  fencingToken : ℤ
  partitionKey : Option PartitionKey := none

structure FencedItem where
  id : Str
  fencingToken : ℤ
  leaseToken : Option Bytes := none
  partitionKey : Option PartitionKey := none

structure ManyCall where
  partitionKey : Option PartitionKey := none
  fromState : Str := []
  toState : Str := []
  result : Value := .none
  error : Value := .none
  payload : Value := .none
  reason : Value := .none
  options : NamedOptions := {}
  ttlMs : Option ℤ := none
  runAtMs : Option ℤ := none
  nowMs : Option ℤ := none
  priority : Option ℤ := none
  independent : Option Bool := none
  returnOkOnSuccess : Bool := false
  claimed : List ClaimedFlow := []
  fenced : List FencedItem := []

section Items

/-- One turn of the loop of `_append_claimed_items_args`. -/
def claimedItemArgs (batch : Option PartitionKey) (item : ClaimedFlow) :
    Except Err (List Value) := do
  validateClaimGuard item.leaseToken item.fencingToken
  match batch, item.partitionKey with
  | none, none => .error .valueError
  | none, some key =>
    .ok [.str item.id, key.value, .bytes item.leaseToken, .int item.fencingToken]
  | some _, none => .ok [.str item.id, .bytes item.leaseToken, .int item.fencingToken]
  | some batch, some key =>
    if key ≠ batch then .error .valueError
    else .ok [.str item.id, .bytes item.leaseToken, .int item.fencingToken]

/-- `_append_claimed_items_args`, also the end of `_complete_many_args`. -/
def appendClaimedItemsArgs (batch : Option PartitionKey) (items : List ClaimedFlow) :
    Except Err (List Value) := do
  let rows ← items.mapM (claimedItemArgs batch)
  .ok (word "ITEMS"::rows.flatten)

/-- The checks of one item in `_append_fenced_items_args`. -/
def validateFencedItem (batch : Option PartitionKey) (includeLease : Bool)
    (item : FencedItem) : Except Err Unit :=
  if item.fencingToken < 0 then .error .valueError
  else if includeLease ∧ item.leaseToken.getD [] = [] then .error .valueError
  else if batch = none ∧ item.partitionKey = none then .error .valueError
  else if batch ≠ none ∧ item.partitionKey ≠ none ∧ item.partitionKey ≠ batch then
    .error .valueError
  else .ok ()

def fencedItemArgs (mixed includeLease : Bool) (item : FencedItem) : List Value :=
  (if mixed then
      [.str item.id, (item.partitionKey.map PartitionKey.value).getD .none,
        .int item.fencingToken]
    else [.str item.id, .int item.fencingToken])++
  (if includeLease then [(item.leaseToken.map .bytes).getD .none] else [])

/-- `_append_fenced_items_args`. -/
def appendFencedItemsArgs (batch : Option PartitionKey) (items : List FencedItem)
    (includeLease : Bool) : Except Err (List Value) := do
  let _ ← items.mapM (validateFencedItem batch includeLease)
  .ok (word "ITEMS"::items.flatMap (fencedItemArgs batch.isNone includeLease))

end Items

section Builders

variable (codec : Codec) (clock : ℤ) (c : ManyCall)

def ManyCall.now : ℤ := c.nowMs.getD clock

/-- `_append_bool`. -/
def appendBool (name : String) (v : Option Bool) : List Value :=
  append name (v.map fun b => word (if b then "true" else "false"))

/-- What stands at the place of the partition. -/
def wirePartition (batch : Option PartitionKey) : Value :=
  (batch.map PartitionKey.value).getD (word "MIXED")

/-- `_complete_many_args`. -/
def completeManyArgs : Except Err (List Value) := do
  let items ← appendClaimedItemsArgs c.partitionKey c.claimed
  .ok (word "FLOW.COMPLETE_MANY"::wirePartition c.partitionKey::
    (appendEncoded "RESULT" codec c.result++(appendEncoded "PAYLOAD" codec c.payload++
      (intArgs "TTL" c.ttlMs++(intArgs "NOW" (some (c.now clock))++
        (appendBool "INDEPENDENT" c.independent++(appendAttributes c.options++
          (appendStateMeta c.options++
            (append "RETURN" (if c.returnOkOnSuccess then some (word "OK_ON_SUCCESS") else none)++
              appendNamedValues codec c.options)))))))++items))

/-- The one partition of all jobs, if there is one. -/
def jobsPartition : List ClaimedFlow → Option PartitionKey
  | [] => none
  | job::jobs =>
    if job.partitionKey ≠ none ∧ (job::jobs).all (·.partitionKey = job.partitionKey) then
      job.partitionKey
    else none

/-- `_complete_jobs_command_args`. -/
def completeJobsCommandArgs : Except Err (List Value) :=
  if c.claimed = [] then .error .indexError
  else do
    let items ← appendClaimedItemsArgs (jobsPartition c.claimed) c.claimed
    .ok (word "FLOW.COMPLETE_MANY"::wirePartition (jobsPartition c.claimed)::
      (appendEncoded "RESULT" codec c.result++(appendEncoded "PAYLOAD" codec c.payload++
        (intArgs "TTL" c.ttlMs++(intArgs "NOW" (some (c.now clock))++
          (appendBool "INDEPENDENT" c.independent++
            appendBool "TERMINAL_LOCAL_ONLY" (some true)))))++items))

/-- `retry_many`. -/
def retryManyArgs : Except Err (List Value) := do
  let items ← appendClaimedItemsArgs c.partitionKey c.claimed
  .ok (word "FLOW.RETRY_MANY"::wirePartition c.partitionKey::
    (appendEncoded "ERROR" codec c.error++(appendEncoded "PAYLOAD" codec c.payload++
      (intArgs "RUN_AT" c.runAtMs++(intArgs "NOW" (some (c.now clock))++
        (appendBool "INDEPENDENT" c.independent++appendNamed codec c.options))))++items))

/-- `fail_many`. -/
def failManyArgs : Except Err (List Value) := do
  let items ← appendClaimedItemsArgs c.partitionKey c.claimed
  .ok (word "FLOW.FAIL_MANY"::wirePartition c.partitionKey::
    (appendEncoded "ERROR" codec c.error++(appendEncoded "PAYLOAD" codec c.payload++
      (intArgs "TTL" c.ttlMs++(intArgs "NOW" (some (c.now clock))++
        (appendBool "INDEPENDENT" c.independent++appendNamed codec c.options))))++items))

/-- `transition_many`. -/
def transitionManyArgs : Except Err (List Value) := do
  let priority ← appendPriority c.priority
  let items ← appendFencedItemsArgs c.partitionKey c.fenced true
  .ok (word "FLOW.TRANSITION_MANY"::wirePartition c.partitionKey::.str c.fromState::
    .str c.toState::(appendEncoded "PAYLOAD" codec c.payload++
      (intArgs "RUN_AT" c.runAtMs++(priority++(intArgs "NOW" (some (c.now clock))++
        (appendBool "INDEPENDENT" c.independent++appendNamed codec c.options))))++items))

/-- `cancel_many`. -/
def cancelManyArgs : Except Err (List Value) := do
  let items ← appendFencedItemsArgs c.partitionKey c.fenced false
  .ok (word "FLOW.CANCEL_MANY"::wirePartition c.partitionKey::
    (appendEncoded "REASON" codec c.reason++(intArgs "TTL" c.ttlMs++
      (intArgs "NOW" (some (c.now clock))++(appendBool "INDEPENDENT" c.independent++
        (appendStateMeta c.options++appendNamedValues codec c.options))))++items))

end Builders

inductive ManyKind where
  | complete
  | completeJobs
  | retry
  | fail
  | transition
  | cancel
  deriving DecidableEq, Repr

def manyArgs (codec : Codec) (clock : ℤ) (c : ManyCall) : ManyKind → Except Err (List Value)
  | .complete => completeManyArgs codec clock c
  | .completeJobs => completeJobsCommandArgs codec clock c
  | .retry => retryManyArgs codec clock c
  | .fail => failManyArgs codec clock c
  | .transition => transitionManyArgs codec clock c
  | .cancel => cancelManyArgs codec clock c

/-- How the builder of the command reads the arguments after the name. -/
def readMany (rt : Runtime) : ManyKind → List Value → Except Err Payload
  | .complete, args | .completeJobs, args => flowClaimedManyPayload rt "FLOW.COMPLETE_MANY" args
  | .retry, args => flowClaimedManyPayload rt "FLOW.RETRY_MANY" args
  | .fail, args => flowClaimedManyPayload rt "FLOW.FAIL_MANY" args
  | .transition, args =>
    flowFencedManyPayload rt "FLOW.TRANSITION_MANY" (args.take 1++args.drop 3) true
  | .cancel, args => flowFencedManyPayload rt "FLOW.CANCEL_MANY" args false

def batchKey (c : ManyCall) : ManyKind → Option PartitionKey
  | .completeJobs => jobsPartition c.claimed
  | _ => c.partitionKey

section Meaning

/-- One item as the server acts on it. -/
structure ManyItem where
  id : Value
  leaseToken : Option Value
  fencingToken : Value
  partition : Option Value
  deriving DecidableEq, Repr

/-- An item of a request; where it names no partition it is of the batch's. -/
def itemOf (batch : Option Value) : Value → Option ManyItem
  | .list [id, lease, fencing] => some ⟨id, some lease, fencing, batch⟩
  | .list [id, partition, lease, fencing] => some ⟨id, some lease, fencing, some partition⟩
  | .dict fields => do
    let id ← Dict.get? fields (.str (lit "id"))
    let fencing ← Dict.get? fields (.str (lit "fencing_token"))
    some ⟨id, Dict.get? fields (.str (lit "lease_token")), fencing,
      (Dict.get? fields (.str (lit "partition_key"))).or batch⟩
  | _ => none

/-- The items of a request. -/
def itemsOf (payload : Payload) : Option (List ManyItem) :=
  match Dict.get? payload "items" with
  | some (.list rows) => rows.mapM (itemOf (Dict.get? payload "partition_key"))
  | _ => none

/-- The partition an item belongs to. -/
def meantPartition (batch item : Option PartitionKey) : Option Value :=
  (if batch = none then item else batch).map PartitionKey.value

def meantClaimed (batch : Option PartitionKey) (item : ClaimedFlow) : ManyItem :=
  ⟨.str item.id, some (.bytes item.leaseToken), .int item.fencingToken,
    meantPartition batch item.partitionKey⟩

def meantFenced (batch : Option PartitionKey) (includeLease : Bool) (item : FencedItem) :
    ManyItem :=
  ⟨.str item.id, if includeLease then item.leaseToken.map .bytes else none,
    .int item.fencingToken, meantPartition batch item.partitionKey⟩

/-- The items that a call means. -/
def meantItems (c : ManyCall) : ManyKind → List ManyItem
  | .complete | .retry | .fail => c.claimed.map (meantClaimed c.partitionKey)
  | .completeJobs => c.claimed.map (meantClaimed (jobsPartition c.claimed))
  | .transition => c.fenced.map (meantFenced c.partitionKey true)
  | .cancel => c.fenced.map (meantFenced c.partitionKey false)

end Meaning

end FerricStore.ManyArguments
