import FerricStore.FlowManyPayloads
import FerricStore.FlowRequestDecoding
import FerricStore.RawPipelines

/-!
# How many results a command expects

A command with many items is answered by one result for each of them. The client takes
the number from the request it built, reading it back from the bytes of a compact body,
or from the raw arguments before anything is built.
-/

set_option autoImplicit false

namespace FerricStore.CollectionCounts
open Text BasicCommands FlowOptions FlowCommands FlowManyPayloads CompactBudget FlowCodec Cursor
open RawPipelines Metered

/-- The commands whose results are counted. -/
inductive Bulk where
  | createMany
  | completeMany
  | retryMany
  | failMany
  | transitionMany
  | cancelMany
  | mget
  | valueMget
  deriving DecidableEq, Repr

def Bulk.name : Bulk → String
  | .createMany => "FLOW.CREATE_MANY"
  | .completeMany => "FLOW.COMPLETE_MANY"
  | .retryMany => "FLOW.RETRY_MANY"
  | .failMany => "FLOW.FAIL_MANY"
  | .transitionMany => "FLOW.TRANSITION_MANY"
  | .cancelMany => "FLOW.CANCEL_MANY"
  | .mget => "MGET"
  | .valueMget => "FLOW.VALUE.MGET"

section Builder

variable (rt : Runtime)

/-- `split_flow_value_mget`: the references, and the limit of a trailing option. -/
def splitFlowValueMget (args : List Value) : List Value × Option ℤ :=
  match args.reverse with
  | .int n::keyword::rest =>
    if rt.commandToken keyword ∈ ["MAX_BYTES", "MAXBYTES"].map lit then (rest.reverse, some n)
    else (args, none)
  | _ => (args, none)

/-- The fields of a command before any compact encoding. -/
def requestFields : Bulk → List Value → Except Err Payload
  | .createMany, args => flowCreateManyPayload rt args
  | .completeMany, args => flowClaimedManyPayload rt "FLOW.COMPLETE_MANY" args
  | .retryMany, args => flowClaimedManyPayload rt "FLOW.RETRY_MANY" args
  | .failMany, args => flowClaimedManyPayload rt "FLOW.FAIL_MANY" args
  | .transitionMany, args => do
    let fromState ← requireArg args 1 "FLOW.TRANSITION_MANY"
    let toState ← requireArg args 2 "FLOW.TRANSITION_MANY"
    let fields ← flowFencedManyPayload rt "FLOW.TRANSITION_MANY" (args.take 1++args.drop 3) true
    .ok (Dict.update [("from_state", fromState), ("to_state", toState)] fields)
  | .cancelMany, args => flowFencedManyPayload rt "FLOW.CANCEL_MANY" args false
  | .mget, args =>
    if args = [] then invalid (lit "wrong number of arguments for MGET")
    else .ok [("keys", .list args)]
  | .valueMget, args =>
    .ok (("refs", .list (splitFlowValueMget rt args).1)::
      ((splitFlowValueMget rt args).2.map fun n => ("max_bytes", .int n)).toList)

/-- The compact encoder of a command. -/
def compactBody (fields : Payload) : Bulk → List Value → Metered Err Bytes
  | .createMany, _ => compactFlowCreateManyPayload fields
  | .completeMany, _ => compactFlowCompleteManyPayload rt fields
  | .retryMany, _ => compactFlowRetryManyPayload rt fields
  | .failMany, _ => compactFlowFailManyPayload rt fields
  | .transitionMany, _ => compactFlowTransitionManyPayload rt fields
  | .cancelMany, _ => compactFlowCancelManyPayload rt fields
  | .mget, args => compactBinarySequence args 2 args.length
  | .valueMget, _ => compactFlowValueMgetPayload fields

/-- `_command_exec_protocol_command`, with `_normalize_request_context` as `normalize`. -/
def commandExecProtocolCommand (normalize : Value → Except Err (Option Value)) (name : String)
    (args : List Value) : Except Err ProtocolCommand :=
  match args.reverse with
  | context::keyword::rest =>
    if rt.commandToken keyword = lit "REQUEST_CONTEXT" then do
      let context ← normalize context
      .ok ⟨opcode "COMMAND_EXEC", .fields ([("command", .str (lit name)),
        ("args", .list rest.reverse)]++(context.map fun v => ("request_context", v)).toList), 1, 0⟩
    else .ok (plain args)
  | _ => .ok (plain args)
where
  plain (args : List Value) : ProtocolCommand :=
    ⟨opcode "COMMAND_EXEC", .fields [("command", .str (lit name)), ("args", .list args)], 1, 0⟩

/-- The command that the builder makes of the arguments after the name. -/
def buildBulk (policy : CompactEncodingPolicy)
    (normalize : Value → Except Err (Option Value)) (bulk : Bulk) (args : List Value) :
    Except Err ProtocolCommand := do
  let fields ← requestFields rt bulk args
  let compact ← runPolicy policy (compactBody rt fields bulk args)
  match compact with
  | some body => .ok ⟨opcode bulk.name, .raw body, 1, flagCustomPayload⟩
  | none =>
    if Dict.contains fields "indexed_state_meta" ∨ Dict.contains fields "state_meta" then
      commandExecProtocolCommand rt normalize bulk.name args
    else .ok ⟨opcode bulk.name, .fields fields, 1, 0⟩

end Builder

section Payloads

/-- `_COMPACT_U32.unpack_from(payload, offset)[0]`. -/
def u32At (payload : Bytes) (offset : ℕ) : ℕ := BigEndian.decode (slice payload offset 4)

def skipBinary (payload : Bytes) (offset : ℕ) : Option ℕ :=
  if payload.length < offset+4 then none
  else if u32At payload offset = nullU32 then some (offset+4)
  else if offset+4+u32At payload offset ≤ payload.length then
    some (offset+4+u32At payload offset)
  else none

def readCount (payload : Bytes) (offset : ℕ) : Option ℕ :=
  if payload.length < offset+4 then none else some (u32At payload offset)

def manyOpcodes : List ℕ :=
  [Bulk.createMany, .completeMany, .transitionMany, .retryMany, .failMany, .cancelMany].map
    fun b => opcode b.name

/-- `len(value) if isinstance(value, list) else None`. -/
def listLength : Value → Option ℕ
  | .list items => some items.length
  | _ => none

def expectedFieldItems (code : ℕ) (fields : Payload) : Option ℕ :=
  if code = opcode "PIPELINE" then listLength (fields.get "commands")
  else if code ∈ manyOpcodes then listLength (fields.get "items")
  else none

def createManyMarkers : List UInt8 :=
  [compactFlowCreateManyRequest, compactFlowCreateManyPartitionRequest,
    compactFlowCreateManyMixedRequest]

def terminalMarkers : List UInt8 :=
  [compactFlowCompleteManyRequest, compactFlowCompleteManyOkRequest,
    compactFlowRetryManyRequest, compactFlowRetryManyOkRequest, compactFlowCancelManyRequest,
    compactFlowCancelManyOkRequest]

def transitionMarkers : List UInt8 :=
  [compactFlowTransitionManyRequest, compactFlowTransitionManyOkRequest]

def terminalOpcodes : List ℕ :=
  [Bulk.completeMany, .retryMany, .failMany, .cancelMany].map fun b => opcode b.name

def skipCreatePartition (payload : Bytes) (offset : ℕ) : Option ℕ :=
  if payload.head? = some compactFlowCreateManyPartitionRequest then skipBinary payload offset
  else some offset

def createManyCount (payload : Bytes) : Option ℕ := do
  let offset ← skipBinary payload 1
  let offset ← skipBinary payload offset
  let offset ← skipCreatePartition payload offset
  readCount payload (offset+18)

def terminalCount (code : ℕ) (payload : Bytes) : Option ℕ := do
  let offset ← skipBinary payload 1
  readCount payload (offset+if code = opcode "FLOW.RETRY_MANY" then 17 else 9)

def transitionCount (payload : Bytes) : Option ℕ := do
  let offset ← skipBinary payload 1
  let offset ← skipBinary payload offset
  let offset ← skipBinary payload offset
  readCount payload (offset+17)

/-- The counts behind the leading binaries of a many request. -/
def expectedManyItems (code : ℕ) (payload : Bytes) : Option ℕ :=
  if code = opcode "FLOW.CREATE_MANY" ∧ payload.head? ∈ createManyMarkers.map some then
    createManyCount payload
  else if code ∈ terminalOpcodes ∧ payload.head? ∈ terminalMarkers.map some then
    terminalCount code payload
  else if code = opcode "FLOW.TRANSITION_MANY" ∧ payload.head? ∈ transitionMarkers.map some then
    transitionCount payload
  else none

/-- `_expected_payload_collection_items`. -/
def expectedPayloadCollectionItems (code : ℕ) : Body → Option ℕ
  | .fields fields => expectedFieldItems code fields
  | .raw payload =>
    if 6 ≤ payload.length ∧ payload.head? = some compactPipelineRequest ∧
        (code = opcode "PIPELINE" ∨ code = opcode "MGET") then some (u32At payload 2)
    else if code = opcode "FLOW.VALUE.MGET" ∧ 13 ≤ payload.length ∧
        payload.head? = some compactFlowValueMgetRequest then some (u32At payload 9)
    else expectedManyItems code payload

end Payloads

section Commands

variable (rt : Runtime)

/-- `flow_create_many_item_count`. -/
def flowCreateManyItemCount (values : List Value) : Except Err (Option ℕ) :=
  match values with
  | [] => .ok none
  | wire::rest => do
    let valid ← flowOptionPlan rt values
    let found ← findItemMarker rt 0 rest (valid.drop 1)
    match found with
    | none => .ok none
    | some before =>
      let marker := rt.commandToken (rest.getD before .none)
      if marker = lit "ITEMS_EXT" ∨ marker = lit "ITEMS_EXT_V2" then
        .ok (match rest[before+1]? with
          | some (.int n) => if 0 ≤ n then some n.toNat else none
          | _ => none)
      else
        let width := if rt.commandToken wire = lit "MIXED" then 3 else 2
        let itemValues := values.length-(before+1)-1
        .ok (if itemValues % width = 0 then some (itemValues/width) else none)

/-- `_expected_command_collection_items`. -/
def expectedCommandCollectionItems : List Value → Except Err (Option ℕ)
  | [] => .ok none
  | nameArg::args =>
    let name := rt.commandToken nameArg
    if name = lit "MGET" then .ok (some args.length)
    else if name = lit "MSET" then .ok (some 1)
    else if name = lit "FLOW.VALUE.MGET" then .ok (some (splitFlowValueMget rt args).1.length)
    else if name = lit "FLOW.CREATE_MANY" then flowCreateManyItemCount rt args
    else .ok none

/-- The list that holds what the results are for. -/
def Bulk.listField : Bulk → String
  | .mget => "keys"
  | .valueMget => "refs"
  | _ => "items"

/-- The number of items, keys or references of a request. -/
def Bulk.count (bulk : Bulk) (fields : Payload) : ℕ :=
  ((fields.get bulk.listField |> listLength)).getD 0

end Commands

end FerricStore.CollectionCounts
