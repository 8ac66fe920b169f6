import FerricStore.CompactBudget
import FerricStore.ValueCodec

/-!
# Compact Flow requests

The encoders of the bulk Flow commands. Each one declines a payload outside its
schema, reserves the bytes of a field before the field is encoded, and raises
the packing error of a length that does not fit its 32-bit prefix. The item
loops of the source are `each`.
-/

set_option autoImplicit false

namespace FerricStore.FlowCodec
open Text Metered CompactBudget ValueCodec

def compactFlowCreateManyRequest : UInt8 := 0x90
def compactFlowCreateManyPartitionRequest : UInt8 := 0x96
def compactFlowCreateManyMixedRequest : UInt8 := 0x9E
def compactFlowClaimDueRequest : UInt8 := 0x91
def compactFlowCompleteManyRequest : UInt8 := 0x92
def compactFlowCompleteManyOkRequest : UInt8 := 0x93
def compactPipelineRequest : UInt8 := 0x94
def compactFlowRetryManyRequest : UInt8 := 0x97
def compactFlowRetryManyOkRequest : UInt8 := 0x98
def compactFlowCancelManyRequest : UInt8 := 0x99
def compactFlowCancelManyOkRequest : UInt8 := 0x9A
def compactFlowTransitionManyRequest : UInt8 := 0x9B
def compactFlowTransitionManyOkRequest : UInt8 := 0x9C
def compactFlowValueMgetRequest : UInt8 := 0x9D
def nullU32 : ℕ := 0xFFFFFFFF

def compactI64 : Value → Option ℤ
  | .int n => if n < i64Min ∨ n > i64Max then none else some n
  | _ => none

def u32 (n : ℕ) : Bytes := BigEndian.encode 4 n

def i64 (n : ℤ) : Bytes := BigEndian.encodeSigned 8 n

/-- `struct.pack(">I", n)`. -/
def packU32 (n : ℕ) : Metered Err Bytes :=
  if n ≤ u32Max then pure (u32 n) else raise .structError

/-- `struct.pack(">BBI", _COMPACT_PIPELINE_REQUEST, mode, count)`. -/
def packPipelineHeader (mode count : ℕ) : Metered Err Bytes :=
  if mode ≤ 0xFF ∧ count ≤ u32Max then
    pure (compactPipelineRequest::UInt8.ofNat mode::u32 count)
  else raise .structError

def compactBinary (b : Bytes) : Metered Err Bytes := do
  let size ← packU32 b.length
  pure (size++b)

def compactOptionalBinary : Option Bytes → Metered Err Bytes
  | none => pure (u32 nullU32)
  | some b => compactBinary b

def compactBoolMarker (v : Value) : UInt8 :=
  if v.isNone then 0 else if v.truthy then 2 else 1

def isTrue : Value → Bool
  | .bool true => true
  | _ => false

def compactTerminalIndependentMarker (payload : Payload) : UInt8 :=
  if (payload.get "terminal_local_only").truthy then
    if isTrue (payload.get "independent") then 3 else 4
  else compactBoolMarker (payload.get "independent")

def asList : Value → Option (List Value)
  | .list xs => some xs
  | _ => none

def asDict : Value → Option (Dict Key Value)
  | .dict es => some es
  | _ => none

/-- `item.get(name)` of a dictionary argument. -/
def itemGet (item : Dict Key Value) (name : String) : Value :=
  (item.get? (.str (lit name))).getD .none

def guardFields (payload : Payload) (allowed : List String) : Metered Err Unit :=
  if payload.fieldsWithin allowed then pure () else decline

/-- An absent return mode, or `OK_ON_SUCCESS` in any case. -/
def okReturn (rt : Runtime) (returnMode : Value) : Metered Err Bool :=
  if returnMode.isNone then pure false
  else if rt.commandToken returnMode = lit "OK_ON_SUCCESS" then pure true
  else decline

def compactCreateManyReturnMode (v : Value) : Metered Err UInt8 :=
  if v.isNone then pure 0
  else do
    let normalized ← require (← unreservedMaybeBytes v)
    if (upperBytes normalized).map UInt8.toNat = (lit "OK_ON_SUCCESS").map Fin.val then pure 1
    else decline

def createManyFields (mixed : Bool) (fields : List Value) : Metered Err Bytes :=
  match mixed, fields with
  | true, [idArg, partitionArg, payloadArg] => do
    let itemId ← boundedMaybeBytes idArg
    let itemPayload ← boundedMaybeBytes payloadArg
    let itemId ← require itemId
    let itemPayload ← require itemPayload
    let idPart ← compactBinary itemId
    let itemPartition ← require (← boundedMaybeBytes partitionArg)
    let partitionPart ← compactBinary itemPartition
    let payloadPart ← compactBinary itemPayload
    pure (idPart++(partitionPart++payloadPart))
  | false, [idArg, payloadArg] => do
    let itemId ← boundedMaybeBytes idArg
    let itemPayload ← boundedMaybeBytes payloadArg
    let itemId ← require itemId
    let itemPayload ← require itemPayload
    let idPart ← compactBinary itemId
    let payloadPart ← compactBinary itemPayload
    pure (idPart++payloadPart)
  | _, _ => decline

def createManyItem (mixed : Bool) (item : Value) : Metered Err Bytes := do
  let fields ← require (asList item)
  createManyFields mixed fields

def createManyPartition : Option Bytes → Metered Err Bytes
  | none => pure []
  | some partition => compactOptionalBinary (some partition)

def createManyKind (mixed : Bool) (partitionKey : Option Bytes) : UInt8 :=
  if mixed then compactFlowCreateManyMixedRequest
  else if partitionKey.isNone then compactFlowCreateManyRequest
  else compactFlowCreateManyPartitionRequest

def isTriple (item : Value) : Bool := (asList item).any fun fields => fields.length = 3

def compactFlowCreateManyPayload (payload : Payload) : Metered Err Bytes := do
  guardFields payload ["type", "state", "partition_key", "now_ms", "run_at_ms",
    "independent", "items", "return"]
  let items ← require (asList (payload.get "items"))
  reserve 23
  let typeValue ← boundedMaybeBytes (payload.get "type")
  let state ← boundedMaybeBytes (payload.get "state")
  let typeValue ← require typeValue
  let state ← require state
  let nowMs ← require (compactI64 (payload.get "now_ms"))
  let runAtMs ← require (compactI64 (payload.get "run_at_ms"))
  let returnMode ← compactCreateManyReturnMode (payload.get "return")
  let partitionKey ← require (← boundedOptionalBytes (payload.get "partition_key"))
  let mixed := partitionKey.isNone && items.all isTriple
  let typePart ← compactBinary typeValue
  let statePart ← compactBinary state
  let partitionPart ← createManyPartition partitionKey
  let count ← packU32 items.length
  let itemParts ← each (createManyItem mixed) items
  pure (createManyKind mixed partitionKey::(typePart++(statePart++(partitionPart++
    (i64 nowMs++(i64 runAtMs++(compactBoolMarker (payload.get "independent")::returnMode::
      (count++itemParts.flatten))))))))

/-- A value that cannot be a member of a set. -/
def unhashable : Value → Bool
  | .list _ | .dict _ | .bytearray _ => true
  | .tuple items => anyUnhashable items
  | _ => false
where
  anyUnhashable : List Value → Bool
    | [] => false
    | v::vs => unhashable v || anyUnhashable vs

def among (v : Value) (names : List String) : Bool :=
  match v with
  | .str s => names.any fun name => s = lit name
  | _ => false

def compactReturnMode (v : Value) : Metered Err UInt8 :=
  if v.isNone then pure 0
  else if unhashable v then raise .typeError
  else if among v ["jobs_compact", "JOBS_COMPACT"] then pure 1
  else if among v ["jobs_compact_state", "JOBS_COMPACT_STATE"] then pure 2
  else if among v ["jobs_compact_attrs", "JOBS_COMPACT_ATTRS", "jobs_compact_attributes",
    "JOBS_COMPACT_ATTRIBUTES"] then pure 3
  else if among v ["jobs_compact_state_attrs", "JOBS_COMPACT_STATE_ATTRS",
    "jobs_compact_with_state_attrs", "JOBS_COMPACT_WITH_STATE_ATTRS",
    "jobs_compact_state_attributes", "JOBS_COMPACT_STATE_ATTRIBUTES",
    "jobs_compact_with_state_attributes", "JOBS_COMPACT_WITH_STATE_ATTRIBUTES"] then pure 4
  else decline

def binaryPart (v : Value) : Metered Err Bytes := do
  let encoded ← require (← boundedMaybeBytes v)
  compactBinary encoded

def compactPartitionRequest (payload : Payload) : Metered Err (UInt8 × Bytes) :=
  if payload.contains "partition_key" then do
    let part ← binaryPart (payload.get "partition_key")
    pure (1, part)
  else if payload.contains "partition_keys" then do
    let values ← require (asList (payload.get "partition_keys"))
    reserve 4
    let count ← packU32 values.length
    let parts ← each binaryPart values
    pure (2, count++parts.flatten)
  else pure (0, [])

def getOr (payload : Payload) (name : String) (default : Value) : Value :=
  (payload.get? name).getD default

def reclaimMarker (payload : Payload) : UInt8 :=
  if (getOr payload "reclaim_expired" (.bool true)).truthy then 1 else 0

def compactFlowClaimDuePayload (payload : Payload) : Metered Err Bytes := do
  guardFields payload ["type", "state", "worker", "lease_ms", "limit", "partition_key",
    "partition_keys", "return", "block_ms", "reclaim_expired", "reclaim_ratio", "priority"]
  if payload.contains "partition_key" && payload.contains "partition_keys" then decline
  else
    reserve 44
    let typeValue ← boundedMaybeBytes (payload.get "type")
    let state ← boundedOptionalBytes (payload.get "state")
    reserveIf (state = some none) 4
    let worker ← boundedMaybeBytes (payload.get "worker")
    let typeValue ← require typeValue
    let state ← require state
    let worker ← require worker
    let leaseMs ← require (compactI64 (payload.get "lease_ms"))
    let limit ← require (compactI64 (payload.get "limit"))
    let blockMs ← require (compactI64 (getOr payload "block_ms" (.int (-1))))
    let reclaimRatio ← require (compactI64 (getOr payload "reclaim_ratio" (.int 25)))
    let priority ← require (compactI64 (getOr payload "priority" (.int i64Min)))
    let returnMode ← compactReturnMode (payload.get "return")
    let partition ← compactPartitionRequest payload
    let typePart ← compactBinary typeValue
    let statePart ← compactOptionalBinary state
    let workerPart ← compactBinary worker
    pure (compactFlowClaimDueRequest::(typePart++(statePart++(workerPart++(i64 leaseMs++
      (i64 limit++(i64 blockMs++(reclaimMarker payload::(i64 reclaimRatio++(i64 priority++
        (returnMode::partition.1::partition.2)))))))))))

/-- The item of a claimed batch: id, an optional partition, lease and fencing token. -/
def claimedManyFields (fields : List Value) : Metered Err Bytes :=
  match fields with
  | [idArg, partitionArg, leaseArg, fencingArg] => do
    let itemId ← boundedMaybeBytes idArg
    let itemPartition ← require (← boundedMaybeBytes partitionArg)
    let leaseToken ← boundedMaybeBytes leaseArg
    let itemId ← require itemId
    let leaseToken ← require leaseToken
    let fencingToken ← require (compactI64 fencingArg)
    reserve 8
    let idPart ← compactBinary itemId
    let partitionPart ← compactBinary itemPartition
    let leasePart ← compactBinary leaseToken
    pure (idPart++(partitionPart++(leasePart++i64 fencingToken)))
  | [idArg, leaseArg, fencingArg] => do
    let itemId ← boundedMaybeBytes idArg
    let leaseToken ← boundedMaybeBytes leaseArg
    let itemId ← require itemId
    let leaseToken ← require leaseToken
    let fencingToken ← require (compactI64 fencingArg)
    reserve 4
    reserve 8
    let idPart ← compactBinary itemId
    let leasePart ← compactBinary leaseToken
    pure (idPart++(u32 nullU32++(leasePart++i64 fencingToken)))
  | _ => decline

def claimedManyItem (item : Value) : Metered Err Bytes := do
  let fields ← require (asList item)
  claimedManyFields fields

def claimedManyTimes (delayed : Bool) (nowMs : ℤ) (payload : Payload) : Metered Err Bytes :=
  if delayed then do
    let runAtMs ← require (compactI64 (payload.get "run_at_ms"))
    pure (i64 nowMs++(i64 runAtMs++[compactBoolMarker (payload.get "independent")]))
  else pure (i64 nowMs++[compactTerminalIndependentMarker payload])

def compactFlowClaimedManyPayload (rt : Runtime) (requestKind okRequestKind : UInt8)
    (extraAllowed : List String) (payload : Payload) : Metered Err Bytes := do
  guardFields payload (["partition_key", "now_ms", "independent", "items", "return"]++
    extraAllowed)
  let nowMs ← require (compactI64 (payload.get "now_ms"))
  let items ← require (asList (payload.get "items"))
  let delayed := extraAllowed.contains "run_at_ms"
  reserve (if delayed then 22 else 14)
  let ok ← okReturn rt (payload.get "return")
  let kind := if ok then okRequestKind else requestKind
  let partitionKey ← require (← boundedOptionalBytes (payload.get "partition_key"))
  reserveIf (partitionKey = none) 4
  let partitionPart ← compactOptionalBinary partitionKey
  let timePart ← claimedManyTimes delayed nowMs payload
  let count ← packU32 items.length
  let itemParts ← each claimedManyItem items
  pure (kind::(partitionPart++(timePart++(count++itemParts.flatten))))

def compactFlowCompleteManyPayload (rt : Runtime) : Payload → Metered Err Bytes :=
  compactFlowClaimedManyPayload rt compactFlowCompleteManyRequest
    compactFlowCompleteManyOkRequest ["terminal_local_only"]

def compactFlowFailManyPayload (rt : Runtime) : Payload → Metered Err Bytes :=
  compactFlowClaimedManyPayload rt compactFlowCompleteManyRequest
    compactFlowCompleteManyOkRequest []

def compactFlowRetryManyPayload (rt : Runtime) : Payload → Metered Err Bytes :=
  compactFlowClaimedManyPayload rt compactFlowRetryManyRequest
    compactFlowRetryManyOkRequest ["run_at_ms"]

def cancelManyItem (item : Value) : Metered Err Bytes := do
  let fields ← require (asDict item)
  let itemId ← boundedMaybeBytes (itemGet fields "id")
  let itemPartition ← boundedOptionalBytes (itemGet fields "partition_key")
  let itemId ← require itemId
  let itemPartition ← require itemPartition
  let fencingToken ← require (compactI64 (itemGet fields "fencing_token"))
  reserveIf (itemPartition = none) 4
  reserve 8
  let idPart ← compactBinary itemId
  let partitionPart ← compactOptionalBinary itemPartition
  pure (idPart++(partitionPart++i64 fencingToken))

def compactFlowCancelManyPayload (rt : Runtime) (payload : Payload) : Metered Err Bytes := do
  guardFields payload ["partition_key", "now_ms", "independent", "items", "return"]
  let nowMs ← require (compactI64 (payload.get "now_ms"))
  let items ← require (asList (payload.get "items"))
  reserve 14
  let ok ← okReturn rt (payload.get "return")
  let kind := if ok then compactFlowCancelManyOkRequest else compactFlowCancelManyRequest
  let partitionKey ← require (← boundedOptionalBytes (payload.get "partition_key"))
  reserveIf (partitionKey = none) 4
  let partitionPart ← compactOptionalBinary partitionKey
  let count ← packU32 items.length
  let itemParts ← each cancelManyItem items
  pure (kind::(partitionPart++(i64 nowMs++
    (compactBoolMarker (payload.get "independent")::(count++itemParts.flatten)))))

def transitionManyItem (item : Value) : Metered Err Bytes := do
  let fields ← require (asDict item)
  let itemId ← boundedMaybeBytes (itemGet fields "id")
  let itemPartition ← boundedOptionalBytes (itemGet fields "partition_key")
  let leaseToken ← boundedOptionalBytes (itemGet fields "lease_token")
  let itemId ← require itemId
  let itemPartition ← require itemPartition
  let leaseToken ← require leaseToken
  let fencingToken ← require (compactI64 (itemGet fields "fencing_token"))
  reserveIf (itemPartition = none) 4
  reserveIf (leaseToken = none) 4
  reserve 8
  let idPart ← compactBinary itemId
  let partitionPart ← compactOptionalBinary itemPartition
  let leasePart ← compactOptionalBinary leaseToken
  pure (idPart++(partitionPart++(i64 fencingToken++leasePart)))

def compactFlowTransitionManyPayload (rt : Runtime) (payload : Payload) :
    Metered Err Bytes := do
  guardFields payload ["partition_key", "from_state", "to_state", "now_ms", "run_at_ms",
    "independent", "items", "return"]
  reserve 22
  let fromState ← boundedMaybeBytes (payload.get "from_state")
  let toState ← boundedMaybeBytes (payload.get "to_state")
  let fromState ← require fromState
  let toState ← require toState
  let nowMs ← require (compactI64 (payload.get "now_ms"))
  let runAtMs ← require (compactI64 (payload.get "run_at_ms"))
  let items ← require (asList (payload.get "items"))
  let ok ← okReturn rt (payload.get "return")
  let kind := if ok then compactFlowTransitionManyOkRequest
    else compactFlowTransitionManyRequest
  let partitionKey ← require (← boundedOptionalBytes (payload.get "partition_key"))
  reserveIf (partitionKey = none) 4
  let fromPart ← compactBinary fromState
  let toPart ← compactBinary toState
  let partitionPart ← compactOptionalBinary partitionKey
  let count ← packU32 items.length
  let itemParts ← each transitionManyItem items
  pure (kind::(fromPart++(toPart++(partitionPart++(i64 nowMs++(i64 runAtMs++
    (compactBoolMarker (payload.get "independent")::(count++itemParts.flatten))))))))

def compactFlowValueMgetPayload (payload : Payload) : Metered Err Bytes := do
  guardFields payload ["refs", "max_bytes"]
  let refs ← require (asList (payload.get "refs"))
  let maxBytes ← require (compactI64 (getOr payload "max_bytes" (.int i64Min)))
  reserve 13
  let count ← packU32 refs.length
  let parts ← each binaryPart refs
  pure (compactFlowValueMgetRequest::(i64 maxBytes++(count++parts.flatten)))

def valuePutItem (item : Payload) : Metered Err Bytes := do
  let nowMs ← require (compactI64 (item.get "now_ms"))
  let value ← require (← boundedMaybeBytes (item.get "value"))
  reserve 8
  let valuePart ← compactBinary value
  pure (valuePart++i64 nowMs)

def ownedValuePutItem (item : Payload) : Metered Err Bytes := do
  let nowMs ← require (compactI64 (item.get "now_ms"))
  let value ← boundedMaybeBytes (item.get "value")
  let ownerFlowId ← boundedMaybeBytes (item.get "owner_flow_id")
  let name ← boundedMaybeBytes (item.get "name")
  let partition ← boundedOptionalBytes (item.get "partition_key")
  let value ← require value
  let ownerFlowId ← require ownerFlowId
  let name ← require name
  let partition ← require partition
  reserveIf (partition = none) 4
  reserve 8
  let valuePart ← compactBinary value
  let ownerPart ← compactBinary ownerFlowId
  let namePart ← compactBinary name
  let partitionPart ← compactOptionalBinary partition
  pure (valuePart++(ownerPart++(namePart++(partitionPart++i64 nowMs))))

def compactFlowValuePutPayload (mode : ℕ) (items : List Payload) : Metered Err Bytes := do
  if items = [] then decline
  else
    reserve 6
    let header ← packPipelineHeader (0x80 ||| mode) items.length
    if mode = 7 ∨ mode = 15 then
      let parts ← each valuePutItem items
      pure (header++parts.flatten)
    else if mode = 8 ∨ mode = 14 then
      let parts ← each ownedValuePutItem items
      pure (header++parts.flatten)
    else decline

/-!
## Compact Flow encoders look at the limit only to reserve
-/

instance packU32_exact (lo n : ℕ) : Exact lo (packU32 n) := Exact.ite

instance packPipelineHeader_exact (lo mode count : ℕ) :
    Exact lo (packPipelineHeader mode count) := Exact.ite

instance compactBinary_exact (lo : ℕ) (b : Bytes) : Exact lo (compactBinary b) :=
  Exact.seq inferInstance inferInstance

instance guardFields_exact (lo : ℕ) (payload : Payload) (allowed : List String) :
    Exact lo (guardFields payload allowed) := Exact.ite

instance compactOptionalBinary_exact (lo : ℕ) (o : Option Bytes) :
    Exact lo (compactOptionalBinary o) := by
  cases o with
  | none => exact Exact.pure lo _
  | some b => exact compactBinary_exact lo b

instance okReturn_exact (lo : ℕ) (rt : Runtime) (v : Value) : Exact lo (okReturn rt v) :=
  Exact.ite

instance createManyFields_exact (lo : ℕ) (mixed : Bool) (fields : List Value) :
    Exact lo (createManyFields mixed fields) := by
  unfold createManyFields
  split
  all_goals
    repeat refine Exact.seq inferInstance fun _ => ?_
    infer_instance

instance createManyItem_exact (lo : ℕ) (mixed : Bool) (item : Value) :
    Exact lo (createManyItem mixed item) := Exact.seq inferInstance inferInstance

instance createManyPartition_exact (lo : ℕ) (o : Option Bytes) :
    Exact lo (createManyPartition o) := by
  cases o with
  | none => exact Exact.pure lo _
  | some b => exact compactOptionalBinary_exact lo (some b)

instance claimedManyFields_exact (lo : ℕ) (fields : List Value) :
    Exact lo (claimedManyFields fields) := by
  unfold claimedManyFields
  split
  all_goals
    repeat refine Exact.seq inferInstance fun _ => ?_
    infer_instance

instance claimedManyItem_exact (lo : ℕ) (item : Value) : Exact lo (claimedManyItem item) :=
  Exact.seq inferInstance inferInstance

instance cancelManyItem_exact (lo : ℕ) (item : Value) : Exact lo (cancelManyItem item) := by
  unfold cancelManyItem
  repeat refine Exact.seq inferInstance fun _ => ?_
  infer_instance

instance transitionManyItem_exact (lo : ℕ) (item : Value) :
    Exact lo (transitionManyItem item) := by
  unfold transitionManyItem
  repeat refine Exact.seq inferInstance fun _ => ?_
  infer_instance

instance binaryPart_exact (lo : ℕ) (v : Value) : Exact lo (binaryPart v) := by
  unfold binaryPart
  repeat refine Exact.seq inferInstance fun _ => ?_
  infer_instance

instance valuePutItem_exact (lo : ℕ) (item : Payload) : Exact lo (valuePutItem item) := by
  unfold valuePutItem
  repeat refine Exact.seq inferInstance fun _ => ?_
  infer_instance

instance ownedValuePutItem_exact (lo : ℕ) (item : Payload) :
    Exact lo (ownedValuePutItem item) := by
  unfold ownedValuePutItem
  repeat refine Exact.seq inferInstance fun _ => ?_
  infer_instance

instance claimedManyTimes_exact (lo : ℕ) (delayed : Bool) (nowMs : ℤ) (payload : Payload) :
    Exact lo (claimedManyTimes delayed nowMs payload) := by
  unfold claimedManyTimes
  split_ifs
  · exact Exact.seq inferInstance inferInstance
  · infer_instance

instance compactPartitionRequest_exact (lo : ℕ) (payload : Payload) :
    Exact lo (compactPartitionRequest payload) := by
  unfold compactPartitionRequest
  split_ifs
  all_goals
    repeat refine Exact.seq inferInstance fun _ => ?_
    infer_instance

instance compactReturnMode_exact (lo : ℕ) (v : Value) : Exact lo (compactReturnMode v) :=
  Exact.ite

/-- The only accepted return mode is shorter than the bytes reserved before it. -/
theorem compactCreateManyReturnMode_exact (v : Value) :
    Exact 23 (compactCreateManyReturnMode v) := by
  unfold compactCreateManyReturnMode
  split
  · infer_instance
  · refine unreservedMaybeBytes_seq v _ (fun o => Exact.seq inferInstance inferInstance) ?_
    intro b used r h
    obtain ⟨mode, w⟩ := r
    simp only [bind_ok_iff, require_ok_iff, ite_ok_iff, pure_ok_iff, decline_ok_iff,
      and_false, or_false, Option.some.injEq] at h
    obtain ⟨c, u, ⟨rfl, rfl⟩, hb, -⟩ := h
    have hl := congrArg List.length hb
    have hlen : b.length = 13 := by simpa [upperBytes, lit] using hl
    omega

theorem createMany_exact (payload : Payload) :
    Exact 0 (compactFlowCreateManyPayload payload) := by
  unfold compactFlowCreateManyPayload
  refine Exact.seq inferInstance fun _ => Exact.seq inferInstance fun _ => ?_
  refine Exact.reserve_bind ?_
  have hmode := compactCreateManyReturnMode_exact (payload.get "return")
  repeat refine Exact.seq inferInstance fun _ => ?_
  infer_instance

theorem claimDue_exact (payload : Payload) : Exact 0 (compactFlowClaimDuePayload payload) := by
  unfold compactFlowClaimDuePayload
  refine Exact.seq inferInstance fun _ => ?_
  split
  · infer_instance
  · repeat refine Exact.seq inferInstance fun _ => ?_
    infer_instance

theorem claimedMany_exact (rt : Runtime) (requestKind okRequestKind : UInt8)
    (extraAllowed : List String) (payload : Payload) :
    Exact 0 (compactFlowClaimedManyPayload rt requestKind okRequestKind extraAllowed
      payload) := by
  unfold compactFlowClaimedManyPayload
  repeat refine Exact.seq inferInstance fun _ => ?_
  infer_instance

theorem cancelMany_exact (rt : Runtime) (payload : Payload) :
    Exact 0 (compactFlowCancelManyPayload rt payload) := by
  unfold compactFlowCancelManyPayload
  repeat refine Exact.seq inferInstance fun _ => ?_
  infer_instance

theorem transitionMany_exact (rt : Runtime) (payload : Payload) :
    Exact 0 (compactFlowTransitionManyPayload rt payload) := by
  unfold compactFlowTransitionManyPayload
  repeat refine Exact.seq inferInstance fun _ => ?_
  infer_instance

theorem valueMget_exact (payload : Payload) :
    Exact 0 (compactFlowValueMgetPayload payload) := by
  unfold compactFlowValueMgetPayload
  repeat refine Exact.seq inferInstance fun _ => ?_
  infer_instance

theorem valuePut_exact (mode : ℕ) (items : List Payload) :
    Exact 0 (compactFlowValuePutPayload mode items) := by
  unfold compactFlowValuePutPayload
  split_ifs
  all_goals
    repeat refine Exact.seq inferInstance fun _ => ?_
    infer_instance

end FerricStore.FlowCodec
