import FerricStore.FlowCodec
import FerricStore.ProtocolCommand

/-!
# Compact pipelines from raw commands

A batch of commands of one name is encoded straight from its arguments: a header
with the mode and the count, then each command. An encoder declines the batch at
the first command it cannot express. The stream and key/value encoders reserve
what they emit; the others are bounded by the size computed before they run.
-/

set_option autoImplicit false

namespace FerricStore.RawPipelines
open Text Metered CompactBudget ValueCodec FlowCodec

def headerSize : ℕ := 6

def f64 (bits : BitVec 64) : Bytes := BigEndian.encode 8 bits.toNat

/-- Text and bytes, whatever the policy. -/
def plainBytes : Value → Metered Err (Option Bytes)
  | .bytes b => pure (some b)
  | .str s => do
    let encoded ← encodeStr s
    pure (some encoded)
  | _ => pure none

def rawPipeline (item : Command → Metered Err Bytes) (mode : ℕ) (commands : List Command) :
    Metered Err Bytes := do
  let header ← packPipelineHeader mode commands.length
  let parts ← each item commands
  pure (header++parts.flatten)

def setCommand (rt : Runtime) : Command → Metered Err Bytes
  | [raw, keyArg, valueArg] =>
    if rt.commandIs "SET" raw then do
      let key ← require (← plainBytes keyArg)
      let value ← require (← plainBytes valueArg)
      let keyPart ← compactBinary key
      let valuePart ← compactBinary value
      pure (keyPart++valuePart)
    else decline
  | _ => decline

def compactPipelineSetPayloadFromRaw (rt : Runtime) : ℕ → List Command → Metered Err Bytes :=
  rawPipeline (setCommand rt)

def keyCommand (rt : Runtime) (name : String) : Command → Metered Err Bytes
  | [raw, keyArg] =>
    if rt.commandIs name raw then do
      let key ← require (← plainBytes keyArg)
      compactBinary key
    else decline
  | _ => decline

def compactPipelineKeysPayloadFromRaw (rt : Runtime) (name : String) :
    ℕ → List Command → Metered Err Bytes :=
  rawPipeline (keyCommand rt name)

def twoBinaryCommand (rt : Runtime) (name : String) : Command → Metered Err Bytes
  | [raw, keyArg, itemArg] =>
    if rt.commandIs name raw then do
      let key ← unreservedMaybeBytes keyArg
      let item ← unreservedMaybeBytes itemArg
      let key ← require key
      let item ← require item
      let keyPart ← compactBinary key
      let itemPart ← compactBinary item
      pure (keyPart++itemPart)
    else decline
  | _ => decline

def compactPipelineTwoBinaryPayloadFromRaw (rt : Runtime) (name : String) :
    ℕ → List Command → Metered Err Bytes :=
  rawPipeline (twoBinaryCommand rt name)

def withScores (rt : Runtime) (name : String) : List Value → Metered Err Bool
  | [] => pure false
  | [option] =>
    if name = "LRANGE" then decline
    else if rt.commandToken option = lit "WITHSCORES" then pure true
    else decline
  | _ => decline

def rangeCommand (rt : Runtime) (name : String) : Command → Metered Err Bytes
  | raw::keyArg::startArg::stopArg::options =>
    if rt.commandToken raw = lit name then do
      let scores ← withScores rt name options
      let key ← require (← unreservedMaybeBytes keyArg)
      let start ← require ((rt.rawInt startArg).bind fun n => compactI64 (.int n))
      let stop ← require ((rt.rawInt stopArg).bind fun n => compactI64 (.int n))
      let keyPart ← compactBinary key
      pure (keyPart++(i64 start++(i64 stop++
        (if name = "ZRANGE" then [if scores then 1 else 0] else []))))
    else decline
  | _ => decline

def compactPipelineRangePayloadFromRaw (rt : Runtime) (name : String) :
    ℕ → List Command → Metered Err Bytes :=
  rawPipeline (rangeCommand rt name)

def hsetCommand (rt : Runtime) : Command → Metered Err Bytes
  | [raw, keyArg, fieldArg, valueArg] =>
    if rt.commandIs "HSET" raw then do
      let key ← unreservedMaybeBytes keyArg
      let field ← unreservedMaybeBytes fieldArg
      let value ← unreservedMaybeBytes valueArg
      let key ← require key
      let field ← require field
      let value ← require value
      let keyPart ← compactBinary key
      let fieldPart ← compactBinary field
      let valuePart ← compactBinary value
      pure (keyPart++(fieldPart++valuePart))
    else decline
  | _ => decline

def compactPipelineHsetPayloadFromRaw (rt : Runtime) : ℕ → List Command → Metered Err Bytes :=
  rawPipeline (hsetCommand rt)

def hmgetCommand (rt : Runtime) : Command → Metered Err Bytes
  | raw::keyArg::fieldArg::fieldArgs =>
    if rt.commandIs "HMGET" raw then do
      let key ← require (← unreservedMaybeBytes keyArg)
      let encoded ← each unreservedMaybeBytes (fieldArg::fieldArgs)
      let fields ← require (encoded.mapM id)
      let keyPart ← compactBinary key
      let count ← packU32 fields.length
      let fieldParts ← each compactBinary fields
      pure (keyPart++(count++fieldParts.flatten))
    else decline
  | _ => decline

def compactPipelineHmgetPayloadFromRaw (rt : Runtime) : ℕ → List Command → Metered Err Bytes :=
  rawPipeline (hmgetCommand rt)

def zaddCommand (rt : Runtime) : Command → Metered Err Bytes
  | [raw, keyArg, scoreArg, memberArg] =>
    if rt.commandIs "ZADD" raw then do
      let key ← unreservedMaybeBytes keyArg
      let member ← unreservedMaybeBytes memberArg
      let key ← require key
      let member ← require member
      let score ← require (rt.score scoreArg)
      let keyPart ← compactBinary key
      let memberPart ← compactBinary member
      pure (keyPart++(f64 score++memberPart))
    else decline
  | _ => decline

def compactPipelineZaddPayloadFromRaw (rt : Runtime) : ℕ → List Command → Metered Err Bytes :=
  rawPipeline (zaddCommand rt)

def isStar : Value → Bool
  | .str s => s = lit "*"
  | .bytes b => b = [0x2A]
  | _ => false

/-- `_compact_stream_xadd_pair_count`. -/
def compactStreamXaddPairCount (rt : Runtime) : Command → Option ℕ
  | raw::_::identifier::pairs =>
    if pairs.length < 2 ∨ pairs.length % 2 ≠ 0 then none
    else if !rt.commandIs "XADD" raw then none
    else if !isStar identifier then none
    else if pairs.length/2 ≤ 0xFFFF then some (pairs.length/2) else none
  | _ => none

def xaddCommand (rt : Runtime) (command : Command) : Metered Err Bytes := do
  let pairCount ← require (compactStreamXaddPairCount rt command)
  match command with
  | _::keyArg::_::pairs => do
    let key ← require (← boundedMaybeBytes keyArg)
    reserve 2
    let keyPart ← compactBinary key
    let parts ← each binaryPart pairs
    pure (keyPart++(BigEndian.encode 2 pairCount++parts.flatten))
  | _ => decline

def compactPipelineStreamXaddPayloadFromRaw (rt : Runtime) (mode : ℕ)
    (commands : List Command) : Metered Err Bytes := do
  reserve headerSize
  rawPipeline (xaddCommand rt) mode commands

/-- The encoding of text and the size measured for it. The branches differ in
what is known before the encoding is allocated. -/
def sequenceText (s : Str) : Metered Err (Bytes × ℕ) := do
  ensure (4+s.length)
  if ← canReserve (4+4*s.length) then
    let value ← encodeStr s
    pure (value, 4+value.length)
  else
    match binaryWireSize (.str s) with
    | none => do
      let _ ← encodeStr s
      decline
    | some size => do
      ensure size
      let value ← encodeStr s
      pure (value, size)

/-- With no limit every check of the remaining bytes passes. -/
def sequenceArg : Value → Metered Err Bytes
  | .bytes b => do
    reserve (4+b.length)
    compactBinary b
  | .str s => do
    let sized ← sequenceText s
    reserve sized.2
    compactBinary sized.1
  | _ => decline

def compactBinarySequence (args : List Value) (mode itemCount : ℕ) : Metered Err Bytes := do
  let header ← packPipelineHeader mode itemCount
  reserve headerSize
  let parts ← each sequenceArg args
  pure (header++parts.flatten)

def keyValuePart (repeated : Bool) (value : Bytes) (keyArg : Value) : Metered Err Bytes := do
  let key ← require (← boundedMaybeBytes keyArg)
  reserveIf repeated (4+value.length)
  let keyPart ← compactBinary key
  let valuePart ← compactBinary value
  pure (keyPart++valuePart)

/-- One value under every key; the value is reserved before the first key. -/
def compactKvSetKeysValuePayload (keys : List Value) (valueArg : Value) (mode : ℕ) :
    Metered Err Bytes :=
  match keys with
  | [] => decline
  | key::rest => do
    reserve headerSize
    let value ← require (← boundedMaybeBytes valueArg)
    let header ← packPipelineHeader mode (key::rest).length
    let _ ← packU32 value.length
    let first ← keyValuePart false value key
    let parts ← each (keyValuePart true value) rest
    pure (header++(first++parts.flatten))

end FerricStore.RawPipelines
