import FerricStore.RawFlowPipelines

/-!
# Compact pipelines from built commands

The encoders of the fields that the command builder returns. An encoder takes
only the fields it writes: a request with any other field is left to the generic
codec.
-/

set_option autoImplicit false

namespace FerricStore.Pipelines
open Text Metered CompactBudget ValueCodec FlowCodec RawPipelines

/-- `set(payload) == names`. -/
def fieldsAre (payload : Payload) (names : List String) : Bool :=
  payload.fieldsWithin names && names.all fun name => payload.contains name

def PipelineItem := Payload → Bytes → Metered Err Bytes

def compactKeyOnlyPipelineItem : PipelineItem := fun payload key =>
  if fieldsAre payload ["key"] then compactBinary key else decline

/-- The key and one other binary field. -/
def binaryFieldItem (field : String) : PipelineItem := fun payload key =>
  if fieldsAre payload ["key", field] then do
    let value ← require (← unreservedMaybeBytes (payload.get field))
    let keyPart ← compactBinary key
    let valuePart ← compactBinary value
    pure (keyPart++valuePart)
  else decline

def compactSetPipelineItem : PipelineItem := binaryFieldItem "value"

def compactHgetPipelineItem : PipelineItem := binaryFieldItem "field"

def compactMemberPipelineItem : PipelineItem := binaryFieldItem "member"

def compactHmgetPipelineItem : PipelineItem := fun payload key =>
  if fieldsAre payload ["key", "fields"] then do
    let fields ← require (asList (payload.get "fields"))
    if fields = [] then decline
    else
      let encoded ← each unreservedMaybeBytes fields
      let encodedFields ← require (encoded.mapM id)
      let keyPart ← compactBinary key
      let count ← packU32 encodedFields.length
      let fieldParts ← each compactBinary encodedFields
      pure (keyPart++(count++fieldParts.flatten))
  else decline

def compactLrangePipelineItem : PipelineItem := fun payload key =>
  if fieldsAre payload ["key", "start", "stop"] then do
    let start ← require (compactI64 (payload.get "start"))
    let stop ← require (compactI64 (payload.get "stop"))
    let keyPart ← compactBinary key
    pure (keyPart++(i64 start++i64 stop))
  else decline

def compactZrangePipelineItem : PipelineItem := fun payload key =>
  if payload.fieldsWithin ["key", "start", "stop", "withscores"] then do
    let start ← require (compactI64 (payload.get "start"))
    let stop ← require (compactI64 (payload.get "stop"))
    let keyPart ← compactBinary key
    pure (keyPart++(i64 start++(i64 stop++
      [if (payload.get "withscores").truthy then 1 else 0])))
  else decline

def Key.value : Key → Value
  | .str s => .str s
  | .bytes b => .bytes b
  | .other id => .object "object" id

def compactHsetPipelineItem : PipelineItem := fun payload key =>
  if fieldsAre payload ["key", "fields"] then
    match payload.get "fields" with
    | .dict [(fieldArg, valueArg)] => do
      let field ← unreservedMaybeBytes (Key.value fieldArg)
      let value ← unreservedMaybeBytes valueArg
      let field ← require field
      let value ← require value
      let keyPart ← compactBinary key
      let fieldPart ← compactBinary field
      let valuePart ← compactBinary value
      pure (keyPart++(fieldPart++valuePart))
    | _ => decline
  else decline

def singleBinaryListPipelineEncoder (field : String) : PipelineItem := fun payload key =>
  if fieldsAre payload ["key", field] then
    match payload.get field with
    | .list [valueArg] => do
      let value ← require (← unreservedMaybeBytes valueArg)
      let keyPart ← compactBinary key
      let valuePart ← compactBinary value
      pure (keyPart++valuePart)
    | _ => decline
  else decline

def compactZaddPipelineItem (rt : Runtime) : PipelineItem := fun payload key =>
  if fieldsAre payload ["key", "items"] then
    match payload.get "items" with
    | .list [.list [scoreArg, memberArg]] => do
      let member ← require (← unreservedMaybeBytes memberArg)
      let score ← require (rt.score scoreArg)
      let keyPart ← compactBinary key
      let memberPart ← compactBinary member
      pure (keyPart++(f64 score++memberPart))
    | _ => decline
  else decline

/-- `_COMPACT_PIPELINE_MODES` and `_COMPACT_PIPELINE_ITEM_ENCODERS`. -/
def compactPipelineItemEncoders (rt : Runtime) : List (String × ℕ × PipelineItem) :=
  [("SET", 1, compactSetPipelineItem),
    ("GET", 2, compactKeyOnlyPipelineItem),
    ("HGET", 18, compactHgetPipelineItem),
    ("HMGET", 28, compactHmgetPipelineItem),
    ("HGETALL", 30, compactKeyOnlyPipelineItem),
    ("SMEMBERS", 27, compactKeyOnlyPipelineItem),
    ("SISMEMBER", 19, compactMemberPipelineItem),
    ("LRANGE", 20, compactLrangePipelineItem),
    ("ZRANGE", 21, compactZrangePipelineItem),
    ("ZSCORE", 29, compactMemberPipelineItem),
    ("HSET", 22, compactHsetPipelineItem),
    ("LPUSH", 23, singleBinaryListPipelineEncoder "values"),
    ("RPUSH", 24, singleBinaryListPipelineEncoder "values"),
    ("SADD", 25, singleBinaryListPipelineEncoder "members"),
    ("SREM", 31, singleBinaryListPipelineEncoder "members"),
    ("ZADD", 26, compactZaddPipelineItem rt),
    ("ZREM", 32, singleBinaryListPipelineEncoder "members")]

/-- One built command of a pipeline of the opcode. -/
def builtItem (op : ℕ) (encoder : PipelineItem) (command : ProtocolCommand) :
    Metered Err Bytes :=
  if command.opcode ≠ op ∨ command.flags ≠ 0 then decline
  else match command.payload with
    | .raw _ => decline
    | .fields payload => do
      let key ← require (← unreservedMaybeBytes (payload.get "key"))
      encoder payload key

def builtPipeline (op mode : ℕ) (encoder : PipelineItem) (commands : List ProtocolCommand) :
    Metered Err Bytes := do
  let header ← packPipelineHeader mode commands.length
  let parts ← each (builtItem op encoder) commands
  pure (header++parts.flatten)

/-- What a built `FLOW.GET` says: its id, its partition and whether it asks for meta. -/
def flowGetFields (rt : Runtime) (payload : Payload) : Metered Err FlowGetItem := do
  guardFields payload ["id", "partition_key", "return"]
  let isMeta ← flowGetReturn rt (payload.get "return")
  let flowId ← require (← unreservedMaybeBytes (payload.get "id"))
  let partition ← flowGetPartition (payload.get "partition_key")
  pure ⟨flowId, partition, isMeta⟩
where
  flowGetReturn (rt : Runtime) (v : Value) : Metered Err Bool :=
    if v.isNone then pure false
    else do
      let mode ← ofExcept (rt.text v)
      if rt.lowerText mode = lit "meta" then pure true else decline
  flowGetPartition (v : Value) : Metered Err (Option Bytes) :=
    if v.isNone then pure none
    else do
      let partition ← require (← unreservedMaybeBytes v)
      pure (some partition)

def flowGetBuilt (rt : Runtime) (command : ProtocolCommand) : Metered Err FlowGetItem :=
  if command.opcode ≠ opcode "FLOW.GET" ∨ command.flags ≠ 0 then decline
  else match command.payload with
    | .raw _ => decline
    | .fields payload => flowGetFields rt payload

/-- `_compact_flow_get_pipeline_payload`. -/
def compactFlowGetPipelinePayload (rt : Runtime) (valuesOnly : Bool)
    (commands : List ProtocolCommand) : Metered Err Bytes := do
  let items ← each (flowGetBuilt rt) commands
  flowGetBody valuesOnly items

/-- `_compact_pipeline_payload`. -/
def compactPipelinePayload (rt : Runtime) (valuesOnly : Bool) :
    List ProtocolCommand → Metered Err Bytes
  | [] => decline
  | command::rest =>
    if command.opcode = opcode "FLOW.GET" then
      compactFlowGetPipelinePayload rt valuesOnly (command::rest)
    else
      match (compactPipelineItemEncoders rt).find? fun e => opcode e.1 = command.opcode with
      | none => decline
      | some (_, mode, encoder) =>
        builtPipeline command.opcode (withValuesOnly mode valuesOnly) encoder (command::rest)

end FerricStore.Pipelines
