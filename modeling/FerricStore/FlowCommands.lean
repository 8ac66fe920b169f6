import FerricStore.CommandOptions
import FerricStore.FlowCodec

/-!
# Building Flow commands

The commands that take their fields from positional arguments and an option map.
A command is given by the names of its positional arguments, whether its `VALUE`
options name values only, and the fields it may not miss. Spawning children has a
grammar of its own: an option list that ends at an items marker.
-/

set_option autoImplicit false

namespace FerricStore.FlowCommands
open Text BasicCommands FlowOptions CompactBudget FlowCodec

structure FlowShape where
  name : String
  positional : List String
  namesOnly : Bool := false
  guards : List String := []

/-- The branches of the Flow builders that end in one option map. -/
def flowShapes : List FlowShape :=
  [⟨"FLOW.CREATE", ["id"], false, []⟩,
    ⟨"FLOW.CLAIM_DUE", ["type"], true, []⟩,
    ⟨"FLOW.COMPLETE", ["id", "lease_token"], false, ["fencing_token"]⟩,
    ⟨"FLOW.RETRY", ["id", "lease_token"], false, ["fencing_token"]⟩,
    ⟨"FLOW.FAIL", ["id", "lease_token"], false, ["fencing_token"]⟩,
    ⟨"FLOW.EXTEND_LEASE", ["id", "lease_token"], false, []⟩,
    ⟨"FLOW.TRANSITION", ["id", "from_state", "to_state"], false,
      ["lease_token", "fencing_token"]⟩,
    ⟨"FLOW.STEP_CONTINUE", ["id", "lease_token", "from_state", "to_state"], false, []⟩,
    ⟨"FLOW.START_AND_CLAIM", ["id"], false, []⟩,
    ⟨"FLOW.RUN_STEPS_MANY", [], false, []⟩,
    ⟨"FLOW.CANCEL", ["id"], false, ["fencing_token"]⟩,
    ⟨"FLOW.GET", ["id"], true, []⟩,
    ⟨"FLOW.HISTORY", ["id"], false, []⟩,
    ⟨"FLOW.REWIND", ["id"], false, []⟩,
    ⟨"FLOW.SIGNAL", ["id"], false, []⟩,
    ⟨"FLOW.STATS", ["type"], false, []⟩,
    ⟨"FLOW.INFO", ["type"], false, []⟩,
    ⟨"FLOW.ATTRIBUTES", ["type"], false, []⟩,
    ⟨"FLOW.ATTRIBUTE_VALUES", ["type", "attribute"], false, []⟩,
    ⟨"FLOW.VALUE.PUT", ["value"], false, []⟩,
    ⟨"FLOW.POLICY.GET", ["type"], false, []⟩,
    ⟨"FLOW.RECLAIM", ["type"], true, []⟩,
    ⟨"FLOW.SCHEDULE.CREATE", ["id"], false, []⟩,
    ⟨"FLOW.SCHEDULE.GET", ["id"], false, []⟩,
    ⟨"FLOW.SCHEDULE.FIRE", ["id"], false, []⟩,
    ⟨"FLOW.SCHEDULE.PAUSE", ["id"], false, []⟩,
    ⟨"FLOW.SCHEDULE.RESUME", ["id"], false, []⟩,
    ⟨"FLOW.SCHEDULE.DELETE", ["id"], false, []⟩,
    ⟨"FLOW.EFFECT.RESERVE", ["id"], false, []⟩,
    ⟨"FLOW.EFFECT.CONFIRM", ["id"], false, []⟩,
    ⟨"FLOW.EFFECT.FAIL", ["id"], false, []⟩,
    ⟨"FLOW.EFFECT.COMPENSATE", ["id"], false, []⟩,
    ⟨"FLOW.EFFECT.GET", ["id"], false, []⟩,
    ⟨"FLOW.GOVERNANCE.LEDGER", ["id"], false, []⟩,
    ⟨"FLOW.APPROVAL.REQUEST", ["id"], false, []⟩,
    ⟨"FLOW.APPROVAL.APPROVE", ["id"], false, []⟩,
    ⟨"FLOW.APPROVAL.REJECT", ["id"], false, []⟩,
    ⟨"FLOW.APPROVAL.GET", ["id"], false, []⟩,
    ⟨"FLOW.CIRCUIT.OPEN", ["scope"], false, []⟩,
    ⟨"FLOW.CIRCUIT.CLOSE", ["scope"], false, []⟩,
    ⟨"FLOW.CIRCUIT.GET", ["scope"], false, []⟩,
    ⟨"FLOW.BUDGET.RESERVE", ["scope"], false, []⟩,
    ⟨"FLOW.BUDGET.COMMIT", ["scope"], false, []⟩,
    ⟨"FLOW.BUDGET.RELEASE", ["scope"], false, []⟩,
    ⟨"FLOW.BUDGET.GET", ["scope"], false, []⟩,
    ⟨"FLOW.LIMIT.LEASE", ["scope"], false, []⟩,
    ⟨"FLOW.LIMIT.SPEND", ["scope"], false, []⟩,
    ⟨"FLOW.LIMIT.RELEASE", ["scope"], false, []⟩,
    ⟨"FLOW.LIMIT.GET", ["scope"], false, []⟩,
    ⟨"FLOW.SCHEDULE.FIRE_DUE", [], false, []⟩,
    ⟨"FLOW.SCHEDULE.LIST", [], false, []⟩,
    ⟨"FLOW.APPROVAL.LIST", [], false, []⟩,
    ⟨"FLOW.GOVERNANCE.OVERVIEW", [], false, []⟩,
    ⟨"FLOW.BUDGET.LIST", [], false, []⟩,
    ⟨"FLOW.LIMIT.LIST", [], false, []⟩,
    ⟨"FLOW.RETENTION_CLEANUP", [], false, []⟩]

def positionalFields (name : String) (args : List Value) :
    ℕ → List String → Except Err Payload
  | _, [] => .ok []
  | i, field::fields => do
    let value ← requireArg args i name
    let others ← positionalFields name args (i+1) fields
    .ok ((field, value)::others)

/-- `_require_mutation_guards`. -/
def requireMutationGuards (name : String) (payload : Payload) (guards : List String) :
    Except Err Unit :=
  let missing := guards.filter fun field => !Dict.contains payload field
  if missing = [] then .ok ()
  else invalid (lit name++lit " requires "++lit (", ".intercalate missing))

/-- `_collapse_states`. -/
def collapseStates (payload : Payload) : Payload :=
  match Dict.get? payload "states" with
  | some (.list [state]) => Dict.pop (Dict.set payload "state" state) "states"
  | _ => payload

/-- What a branch does after the option map. -/
def finishFields (shape : FlowShape) (payload : Payload) : Except Err Payload :=
  if shape.name = "FLOW.CLAIM_DUE" then .ok (collapseStates payload)
  else if shape.name = "FLOW.RUN_STEPS_MANY" then
    if Dict.contains payload "items" then .ok payload
    else invalid (lit "FLOW.RUN_STEPS_MANY requires ITEMS")
  else do
    requireMutationGuards shape.name payload shape.guards
    .ok payload

def shapedPayload (rt : Runtime) (shape : FlowShape) (args : List Value) :
    Except Err Payload := do
  let fields ← positionalFields shape.name args 0 shape.positional
  let options ← optionMap rt shape.namesOnly (args.drop shape.positional.length)
  finishFields shape (Dict.update fields options)

/-- The loop of `find_flow_many_item_marker`: how many arguments stand before the
marker. -/
def findItemMarker (rt : Runtime) : ℕ → List Value → List Bool → Except Err (Option ℕ)
  | _, [], _ => .ok none
  | skip+1, _::rest, valid => do
    let found ← findItemMarker rt skip rest valid.tail
    .ok (found.map (·+1))
  | 0, arg::rest, valid =>
    if rt.commandToken arg ∈ itemMarkers.map lit then .ok (some 0)
    else do
      let width ← optionWidth rt rest valid.tail (token rt arg)
      if (width.all fun w => rest.length+1 < w) then .ok none
      else
        let found ← findItemMarker rt (width.getD 1-1) rest valid.tail
        .ok (found.map (·+1))

def entry (name : String) (value : Value) : Key × Value := (.str (lit name), value)

def dash : Value → Bool
  | .str s => s = lit "-"
  | .bytes b => b = utf8 (lit "-")
  | _ => false

def optionalEntry (name : String) (value : Value) : List (Key × Value) :=
  if dash value then [] else [entry name value]

/-- `_parse_spawn_children`. -/
def parseSpawnChildren (mixed : Bool) (values : List Value) : Except Err (List Value) :=
  if values.length % (if mixed then 4 else 3) ≠ 0 then
    invalid (lit "FLOW.SPAWN_CHILDREN ITEMS has wrong child width")
  else .ok (if mixed then mixedChildren values else children values)
where
  mixedChildren : List Value → List Value
    | id::partition::type::payload::rest =>
      .dict [entry "id" id, entry "partition_key" partition, entry "type" type,
        entry "payload" payload]::mixedChildren rest
    | _ => []
  children : List Value → List Value
    | id::type::payload::rest =>
      .dict [entry "id" id, entry "type" type, entry "payload" payload]::children rest
    | _ => []

def textPairs (rt : Runtime) (d : Dict Key Value) : List Value → Except Err (Dict Key Value)
  | nameArg::value::rest => do
    let name ← rt.text nameArg
    textPairs rt (Dict.set d (.str name) value) rest
  | _ => .ok d

/-- The fixed part of an extended child, and what follows it. -/
def childHead : List Value → Option (List (Key × Value) × List Value)
  | id::partition::type::payload::rest =>
    some ([entry "id" id, entry "type" type, entry "payload" payload]++
      optionalEntry "partition_key" partition, rest)
  | _ => none

def childHeadV2 : List Value → Option (List (Key × Value) × List Value)
  | id::partition::type::payload::maxActiveMs::rest =>
    some ([entry "id" id, entry "type" type, entry "payload" payload]++
      (optionalEntry "partition_key" partition++optionalEntry "max_active_ms" maxActiveMs), rest)
  | _ => none

def pairsEntry (name : String) (pairs : Dict Key Value) : List (Key × Value) :=
  if pairs = [] then [] else [entry name (.dict pairs)]

def extendedChildren (rt : Runtime) (label : Str)
    (head : List Value → Option (List (Key × Value) × List Value)) :
    ℕ → List Value → Except Err (List Value)
  | 0, [] => .ok []
  | 0, _::_ => invalid (label++lit " count does not match items")
  | n+1, values => match head values with
    | none => invalid (label++lit " item is truncated")
    | some (fields, rest) => do
      let valueSegment ← consumeCountedArguments (label++lit " VALUE") 2 rest
      let childValues ← textPairs rt [] valueSegment.1
      let refSegment ← consumeCountedArguments (label++lit " VALUE_REF") 2 valueSegment.2
      let childRefs ← textPairs rt [] refSegment.1
      let others ← extendedChildren rt label head n refSegment.2
      .ok (.dict (fields++(pairsEntry "values" childValues++
        pairsEntry "value_refs" childRefs))::others)

def countedChildren (rt : Runtime) (label : Str) (minimum : ℕ)
    (head : List Value → Option (List (Key × Value) × List Value)) (expected : ℕ)
    (values : List Value) : Except Err (List Value) :=
  if expected > values.length/minimum then invalid (label++lit " count does not match items")
  else extendedChildren rt label head expected values

def parseSpawnChildrenExt (rt : Runtime) : ℕ → List Value → Except Err (List Value) :=
  countedChildren rt (lit "FLOW.SPAWN_CHILDREN ITEMS_EXT") 6 childHead

def parseSpawnChildrenExtV2 (rt : Runtime) : ℕ → List Value → Except Err (List Value) :=
  countedChildren rt (lit "FLOW.SPAWN_CHILDREN ITEMS_EXT_V2") 7 childHeadV2

/-- The children after a marker at index `itemToken`. -/
def spawnChildren (rt : Runtime) (args : List Value) (itemToken : ℕ) (marker : Str) :
    Except Err (List Value) :=
  if marker = lit "ITEMS_EXT" ∨ marker = lit "ITEMS_EXT_V2" then do
    let countArg ← requireArg args (itemToken+1) "FLOW.SPAWN_CHILDREN ITEMS_EXT"
    let count ← requireNonnegativeCount (lit "FLOW.SPAWN_CHILDREN ITEMS_EXT") countArg
    if marker = lit "ITEMS_EXT_V2" then
      parseSpawnChildrenExtV2 rt count (args.drop (itemToken+2))
    else parseSpawnChildrenExt rt count (args.drop (itemToken+2))
  else if args[itemToken+1]?.map rt.commandToken = some (lit "MIXED") then
    parseSpawnChildren true (args.drop (itemToken+2))
  else parseSpawnChildren false (args.drop (itemToken+1))

def spawnPayload (rt : Runtime) (parent : Value) (args : List Value) (before : ℕ) :
    Except Err Payload := do
  let options ← optionMap rt false ((args.drop 1).take before)
  let children ← spawnChildren rt args (before+1)
    (rt.commandToken ((args[before+1]?).getD .none))
  .ok (Dict.set (Dict.update [("id", parent)] options) "children" (.list children))

/-- `_flow_spawn_children_payload`. -/
def flowSpawnChildrenPayload (rt : Runtime) (args : List Value) : Except Err Payload := do
  let parent ← requireArg args 0 "FLOW.SPAWN_CHILDREN"
  let valid ← flowOptionPlan rt args
  let found ← findItemMarker rt 0 (args.drop 1) (valid.drop 1)
  match found with
  | none => invalid (lit "FLOW many command requires ITEMS or ITEMS_EXT")
  | some before => spawnPayload rt parent args before

/-- The fields the builder gives a command, before any compact encoding. Commands
outside this model are `none`. -/
def flowPayload (rt : Runtime) (name : String) (args : List Value) :
    Option (Except Err Payload) :=
  if name = "FLOW.SPAWN_CHILDREN" then some (flowSpawnChildrenPayload rt args)
  else (flowShapes.find? fun shape => shape.name = name).map fun shape =>
    shapedPayload rt shape args

def flagCustomPayload : ℕ := 0x02

/-- A claim is sent in its compact form when it has one. -/
def claimDueCommand (policy : CompactEncodingPolicy) (payload : Payload) :
    Except Err ProtocolCommand := do
  let compact ← runPolicy policy (compactFlowClaimDuePayload payload)
  match compact with
  | some bytes => .ok ⟨opcode "FLOW.CLAIM_DUE", .raw bytes, 1, flagCustomPayload⟩
  | none => .ok ⟨opcode "FLOW.CLAIM_DUE", .fields payload, 1, 0⟩

/-- `_build_native_flow_protocol_command`, with the builder of the commands outside
this model as `rest`. -/
def buildNativeFlowProtocolCommand (rt : Runtime) (policy : CompactEncodingPolicy)
    (rest : String → List Value → Except Err ProtocolCommand) (name : String)
    (args : List Value) : Except Err ProtocolCommand :=
  match flowPayload rt name args with
  | none => rest name args
  | some payload => do
    let payload ← payload
    if name = "FLOW.CLAIM_DUE" then claimDueCommand policy payload
    else .ok ⟨opcode name, .fields payload, 1, 0⟩

/-- `_build_flow_protocol_command`. Fields that the native request cannot carry send
the command through `exec`, which stands for `_command_exec_protocol_command`. -/
def buildFlowProtocolCommand (rt : Runtime) (policy : CompactEncodingPolicy)
    (rest exec : String → List Value → Except Err ProtocolCommand) (name : String)
    (args : List Value) : Except Err ProtocolCommand := do
  let command ← buildNativeFlowProtocolCommand rt policy rest name args
  match command.payload with
  | .raw _ => .ok command
  | .fields payload =>
    if Dict.contains payload "indexed_state_meta" ∨
        (Dict.contains payload "state_meta" ∧ name ≠ "FLOW.CREATE") then exec name args
    else .ok command

end FerricStore.FlowCommands
