import FerricStore.RawFlowPipelines

/-!
# Choosing a raw pipeline

A batch takes the pipeline of its first command's name. The standard pipelines
and the mixed pipeline of reads and writes are admitted by a size computed from
the arguments alone, before any of them is encoded.
-/

set_option autoImplicit false

namespace FerricStore.RawPipelines
open Text Metered CompactBudget ValueCodec FlowCodec

def binariesSize : List Value → Option ℕ
  | [] => some 0
  | v::vs => do
    let size ← binaryWireSize v
    let rest ← binariesSize vs
    pure (size+rest)

/-- The bytes one command adds, after its name. -/
def standardArgsSize (name : String) (args : List Value) : Option ℕ :=
  if name = "SET" then
    if args.length = 2 then binariesSize args else none
  else if name ∈ ["GET", "HGETALL", "SMEMBERS"] then
    if args.length = 1 then binariesSize args else none
  else if name = "HMGET" then
    if args.length < 2 then none else (binariesSize args).map fun size => size+4
  else if name ∈ ["HGET", "SISMEMBER", "ZSCORE", "LPUSH", "RPUSH", "SADD", "SREM", "ZREM",
      "PUBLISH"] then
    if args.length = 2 then binariesSize args else none
  else if name ∈ ["LRANGE", "ZRANGE"] then
    if args.length = 3 ∨ name = "ZRANGE" ∧ args.length = 4 then
      (binariesSize (args.take 1)).map fun size => size+(16+if name = "ZRANGE" then 1 else 0)
    else none
  else if name = "HSET" then
    if args.length = 3 then binariesSize args else none
  else if name = "ZADD" then
    match args with
    | [key, _, member] => (binariesSize [key, member]).map fun size => size+8
    | _ => none
  else none

def standardCommandSize (rt : Runtime) (name : String) : Command → Option ℕ
  | [] => none
  | raw::args => if rt.commandToken raw = lit name then standardArgsSize name args else none

def sizesFrom (commandSize : Command → Option ℕ) : ℕ → List Command → Option ℕ
  | size, [] => some size
  | size, c::cs => do
    let added ← commandSize c
    sizesFrom commandSize (size+added) cs

/-- `_raw_standard_pipeline_size`. -/
def rawStandardPipelineSize (rt : Runtime) (commands : List Command) (name : String) :
    Option ℕ := sizesFrom (standardCommandSize rt name) headerSize commands

/-- A key as text or bytes, which are never equal. -/
def rawKey : Value → Option Key
  | .str s => some (.str s)
  | .bytes b => some (.bytes b)
  | _ => none

/-- The keys a mixed batch has read and written so far. -/
structure MixedKeys (κ : Type) where
  readKeys : List κ := []
  writtenKeys : List κ := []

def mixedCommandSize (rt : Runtime) (seen : MixedKeys Key) :
    Command → Option (ℕ × MixedKeys Key)
  | [raw, keyArg] => do
    let key ← rawKey keyArg
    let keySize ← binaryWireSize keyArg
    if rt.commandToken raw = lit "GET" ∧ key ∉ seen.writtenKeys then
      some (1+keySize, { seen with readKeys := key::seen.readKeys })
    else none
  | [raw, keyArg, valueArg] => do
    let key ← rawKey keyArg
    let keySize ← binaryWireSize keyArg
    let valueSize ← binaryWireSize valueArg
    if rt.commandToken raw = lit "SET" ∧ key ∉ seen.readKeys ∧ key ∉ seen.writtenKeys then
      some (1+keySize+valueSize, { seen with writtenKeys := key::seen.writtenKeys })
    else none
  | _ => none

def mixedSizesFrom (rt : Runtime) : ℕ → MixedKeys Key → List Command → Option ℕ
  | size, _, [] => some size
  | size, seen, c::cs => do
    let step ← mixedCommandSize rt seen c
    mixedSizesFrom rt (size+step.1) step.2 cs

/-- `_raw_mixed_pipeline_size`. -/
def rawMixedPipelineSize (rt : Runtime) (commands : List Command) : Option ℕ :=
  mixedSizesFrom rt headerSize {} commands

/-- A read may not follow a write of its key. -/
def mixedGet (seen : MixedKeys Bytes) : List Value → Metered Err (Bytes × MixedKeys Bytes)
  | [keyArg] => do
    let key ← require (← unreservedMaybeBytes keyArg)
    if key ∈ seen.writtenKeys then decline
    else
      let keyPart ← compactBinary key
      pure (2::keyPart, { seen with readKeys := key::seen.readKeys })
  | _ => decline

/-- A key is written once, and not after it is read. -/
def mixedSet (seen : MixedKeys Bytes) : List Value → Metered Err (Bytes × MixedKeys Bytes)
  | [keyArg, valueArg] => do
    let key ← unreservedMaybeBytes keyArg
    let value ← unreservedMaybeBytes valueArg
    let key ← require key
    let value ← require value
    if key ∈ seen.readKeys ∨ key ∈ seen.writtenKeys then decline
    else
      let keyPart ← compactBinary key
      let valuePart ← compactBinary value
      pure (1::(keyPart++valuePart), { seen with writtenKeys := key::seen.writtenKeys })
  | _ => decline

def mixedCommand (rt : Runtime) (seen : MixedKeys Bytes) :
    Command → Metered Err (Bytes × MixedKeys Bytes)
  | [] => decline
  | raw::args =>
    if rt.commandToken raw = lit "GET" then mixedGet seen args
    else if rt.commandToken raw = lit "SET" then mixedSet seen args
    else decline

def mixedCommands (rt : Runtime) : MixedKeys Bytes → List Command → Metered Err (List Bytes)
  | _, [] => pure []
  | seen, c::cs => do
    let step ← mixedCommand rt seen c
    let parts ← mixedCommands rt step.2 cs
    pure (step.1::parts)

def compactMixedPipelinePayloadFromRaw (rt : Runtime) (commands : List Command) :
    Metered Err Bytes := do
  let header ← packPipelineHeader 5 commands.length
  let parts ← mixedCommands rt {} commands
  pure (header++parts.flatten)

/-- `_RAW_COMPACT_PIPELINE_SPECS`: the mode and the encoder of a name. -/
def rawCompactPipelineSpecs (rt : Runtime) :
    List (String × ℕ × (ℕ → List Command → Metered Err Bytes)) :=
  [("SET", 1, compactPipelineSetPayloadFromRaw rt),
    ("GET", 2, compactPipelineKeysPayloadFromRaw rt "GET"),
    ("HGET", 18, compactPipelineTwoBinaryPayloadFromRaw rt "HGET"),
    ("HMGET", 28, compactPipelineHmgetPayloadFromRaw rt),
    ("HGETALL", 30, compactPipelineKeysPayloadFromRaw rt "HGETALL"),
    ("SMEMBERS", 27, compactPipelineKeysPayloadFromRaw rt "SMEMBERS"),
    ("SISMEMBER", 19, compactPipelineTwoBinaryPayloadFromRaw rt "SISMEMBER"),
    ("LRANGE", 20, compactPipelineRangePayloadFromRaw rt "LRANGE"),
    ("ZRANGE", 21, compactPipelineRangePayloadFromRaw rt "ZRANGE"),
    ("ZSCORE", 29, compactPipelineTwoBinaryPayloadFromRaw rt "ZSCORE"),
    ("HSET", 22, compactPipelineHsetPayloadFromRaw rt),
    ("LPUSH", 23, compactPipelineTwoBinaryPayloadFromRaw rt "LPUSH"),
    ("RPUSH", 24, compactPipelineTwoBinaryPayloadFromRaw rt "RPUSH"),
    ("SADD", 25, compactPipelineTwoBinaryPayloadFromRaw rt "SADD"),
    ("SREM", 31, compactPipelineTwoBinaryPayloadFromRaw rt "SREM"),
    ("ZADD", 26, compactPipelineZaddPayloadFromRaw rt),
    ("ZREM", 32, compactPipelineTwoBinaryPayloadFromRaw rt "ZREM"),
    ("PUBLISH", 35, compactPipelineTwoBinaryPayloadFromRaw rt "PUBLISH")]

structure RawPipelineOptions where
  valuesOnly : Bool := false
  protocolCommands : Option (List ProtocolCommand) := none
  maxPayloadBytes : Option ℕ := none
  pendingLimit : Option ℕ := none
  allowStreamXadd : Bool := true
  allowPubsubPublish : Bool := true

/-- A raw encoder under the limit passed to it, with no policy of its own. -/
def runRaw {α : Type} (maxPayloadBytes pendingLimit : Option ℕ) (x : Metered Err α) :
    Except Err (Option α) := runPolicy ⟨true, maxPayloadBytes, pendingLimit⟩ x

/-- Unsupported magnitudes fall through to the generic codec. -/
def orGeneric : Except Err (Option Bytes) → Except Err (Option Bytes)
  | .error .overflowError | .error .structError => .ok none
  | r => r

def findSpec (rt : Runtime) (name : Str) :
    Option (String × ℕ × (ℕ → List Command → Metered Err Bytes)) :=
  (rawCompactPipelineSpecs rt).find? fun spec => lit spec.1 = name

/-- The end of `_compact_pipeline_payload_from_raw`: the standard and mixed pipelines. -/
def sizedPipelinePayload (rt : Runtime) (options : RawPipelineOptions) (name : Str)
    (commands : List Command) : Except Err (Option Bytes) :=
  let spec := findSpec rt name
  let standardSize := spec.bind fun s => rawStandardPipelineSize rt commands s.1
  let mixedSize := if standardSize.isNone then rawMixedPipelineSize rt commands else none
  let payloadSize := standardSize.or mixedSize
  if options.maxPayloadBytes.isSome ∧ payloadSize = none then .ok none
  else if (options.maxPayloadBytes.any fun m => payloadSize.any fun n => m < n) then
    .error (.pendingCapacity options.pendingLimit)
  else if standardSize = none then
    if mixedSize = none then .ok none
    else runRaw none none (compactMixedPipelinePayloadFromRaw rt commands)
  else match spec with
    | none => .ok none
    | some (_, mode, encoder) =>
      orGeneric (runRaw none none (encoder (withValuesOnly mode options.valuesOnly) commands))

/-- `_compact_pipeline_payload_from_raw`. -/
def compactPipelinePayloadFromRaw (rt : Runtime)
    (build : Command → Except Err ProtocolCommand) (options : RawPipelineOptions)
    (commands : List Command) : Except Err (Option Bytes) :=
  match commands with
  | [] => .ok none
  | []::_ => .ok none
  | (raw::_)::_ =>
    let name := rt.commandToken raw
    let limit := options.maxPayloadBytes
    let pending := options.pendingLimit
    if name = lit "FLOW.HISTORY" then
      runRaw limit pending
        (compactFlowHistoryPipelinePayloadFromRaw rt options.valuesOnly commands)
    else if name = lit "FLOW.SIGNAL" then
      runRaw limit pending (compactFlowSignalPipelinePayloadFromRaw build options.valuesOnly
        options.protocolCommands commands)
    else if name = lit "FLOW.GET" then
      runRaw limit pending (compactFlowGetPipelinePayloadFromRaw rt options.valuesOnly commands)
    else if name = lit "XADD" then
      if !options.allowStreamXadd then .ok none
      else orGeneric (runRaw limit pending (compactPipelineStreamXaddPayloadFromRaw rt
        (withValuesOnly 34 options.valuesOnly) commands))
    else if name = lit "PUBLISH" ∧ !options.allowPubsubPublish then .ok none
    else sizedPipelinePayload rt options name commands

end FerricStore.RawPipelines
