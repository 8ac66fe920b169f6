import FerricStore.RawPipelines

/-!
# Compact Flow pipelines from raw commands

Batches of `FLOW.GET`, `FLOW.HISTORY` and `FLOW.SIGNAL`. The mode of a `FLOW.GET`
batch depends on all of its commands. A history batch shares its page options,
and a signal batch its signal and states; they are those of the first command,
and a later command that differs declines the batch.
-/

set_option autoImplicit false

namespace FerricStore.RawPipelines
open Text Metered CompactBudget ValueCodec FlowCodec

def withValuesOnly (mode : ℕ) (valuesOnly : Bool) : ℕ :=
  mode ||| if valuesOnly then 0x80 else 0

structure FlowGetItem where
  id : Bytes
  partition : Option Bytes
  isMeta : Bool
  deriving DecidableEq, Repr

/-- The mode of a batch: 17 once any command asks for meta, else 16 once any
has a partition. -/
def flowGetMode (items : List FlowGetItem) : ℕ :=
  if items.any FlowGetItem.isMeta then 17
  else if items.any fun x => x.partition.isSome then 16
  else 9

def flowGetPart (mode : ℕ) (x : FlowGetItem) : Metered Err Bytes := do
  let idPart ← compactBinary x.id
  if mode = 9 then pure idPart
  else
    let partitionPart ← compactOptionalBinary x.partition
    pure (idPart++partitionPart)

def flowGetBody (valuesOnly : Bool) (items : List FlowGetItem) : Metered Err Bytes := do
  let header ← packPipelineHeader (withValuesOnly (flowGetMode items) valuesOnly) items.length
  let parts ← each (flowGetPart (flowGetMode items)) items
  pure (header++parts.flatten)

def flowGetOptions (rt : Runtime) : List Value → Value → Bool → Metered Err (Value × Bool)
  | [], partitionArg, isMeta => pure (partitionArg, isMeta)
  | [_], _, _ => decline
  | option::value::rest, partitionArg, isMeta =>
    if rt.commandToken option = lit "PARTITION" ∨
        rt.commandToken option = lit "PARTITION_KEY" then
      flowGetOptions rt rest value isMeta
    else if rt.commandToken option = lit "RETURN" then do
      let mode ← ofExcept (rt.text value)
      if rt.lowerText mode = lit "meta" then flowGetOptions rt rest partitionArg true
      else decline
    else decline

def flowGetCommand (rt : Runtime) : Command → Metered Err FlowGetItem
  | raw::idArg::options =>
    if rt.commandToken raw = lit "FLOW.GET" then do
      let flowId ← require (← boundedMaybeBytes idArg)
      let parsed ← flowGetOptions rt options .none false
      let partition ← require (← boundedOptionalBytes parsed.1)
      pure ⟨flowId, partition, parsed.2⟩
    else decline
  | _ => decline

def compactFlowGetPipelinePayloadFromRaw (rt : Runtime) (valuesOnly : Bool)
    (commands : List Command) : Metered Err Bytes := do
  reserve headerSize
  let items ← each (flowGetCommand rt) commands
  reserveIf (flowGetMode items ≠ 9) (4*items.countP fun x => x.partition.isNone)
  flowGetBody valuesOnly items

structure HistoryPage where
  count : ℤ
  includeCold : Bool
  consistentProjection : Bool
  deriving DecidableEq, Repr

def defaultPage : HistoryPage := ⟨100, false, true⟩

def flowHistoryOptions (rt : Runtime) :
    List Value → Value → HistoryPage → Metered Err (Value × HistoryPage)
  | [], partitionArg, page => pure (partitionArg, page)
  | [_], _, _ => decline
  | option::value::rest, partitionArg, page =>
    if rt.commandToken option = lit "COUNT" then do
      let count ← require ((rt.rawInt value).bind fun n => compactI64 (.int n))
      flowHistoryOptions rt rest partitionArg { page with count := count }
    else if rt.commandToken option = lit "PARTITION" ∨
        rt.commandToken option = lit "PARTITION_KEY" then
      flowHistoryOptions rt rest value page
    else if rt.commandToken option = lit "INCLUDE_COLD" then do
      let cold ← ofExcept (rt.coerceBool value)
      flowHistoryOptions rt rest partitionArg { page with includeCold := cold }
    else if rt.commandToken option = lit "CONSISTENT_PROJECTION" then do
      let consistent ← ofExcept (rt.coerceBool value)
      flowHistoryOptions rt rest partitionArg { page with consistentProjection := consistent }
    else decline

structure HistoryItem where
  id : Bytes
  partition : Option Bytes
  deriving DecidableEq, Repr

/-- What the first command of a batch fixes, a later command must repeat. -/
def agrees {α : Type} [DecidableEq α] (shared : Option α) (own : α) : Metered Err Unit :=
  match shared with
  | none => pure ()
  | some first => if first = own then pure () else decline

def flowHistoryCommand (rt : Runtime) (shared : Option HistoryPage) :
    Command → Metered Err (HistoryPage × HistoryItem)
  | raw::idArg::options =>
    if rt.commandToken raw = lit "FLOW.HISTORY" then do
      let flowId ← require (← boundedMaybeBytes idArg)
      let parsed ← flowHistoryOptions rt options .none defaultPage
      let partition ← require (← boundedOptionalBytes parsed.1)
      reserveIf (partition = none) 4
      agrees shared parsed.2
      pure (parsed.2, ⟨flowId, partition⟩)
    else decline
  | _ => decline

def flowHistoryPart (x : HistoryItem) : Metered Err Bytes := do
  let idPart ← compactBinary x.id
  let partitionPart ← compactOptionalBinary x.partition
  pure (idPart++partitionPart)

def historyMarker (b : Bool) : UInt8 := if b then 2 else 1

def flowHistoryBody (valuesOnly : Bool) (page : HistoryPage) (items : List HistoryItem) :
    Metered Err Bytes := do
  let header ← packPipelineHeader (withValuesOnly 10 valuesOnly) items.length
  let parts ← each flowHistoryPart items
  pure (header++(i64 page.count++(historyMarker page.includeCold::
    historyMarker page.consistentProjection::parts.flatten)))

def compactFlowHistoryPipelinePayloadFromRaw (rt : Runtime) (valuesOnly : Bool)
    (commands : List Command) : Metered Err Bytes := do
  reserve (headerSize+10)
  match commands with
  | [] => decline
  | command::rest => do
    let first ← flowHistoryCommand rt none command
    let others ← each (flowHistoryCommand rt (some first.1)) rest
    flowHistoryBody valuesOnly first.1 (first.2::others.map Prod.snd)

structure SharedSignal where
  signal : Bytes
  ifState : Bytes
  transitionTo : Bytes
  deriving DecidableEq, Repr

structure SignalItem where
  id : Bytes
  partition : Option Bytes
  nowMs : ℤ
  deriving DecidableEq, Repr

/-- A shared field is reserved with the first command only. -/
def sharedField (shared : Option SharedSignal) (v : Value) : Metered Err (Option Bytes) :=
  if shared.isNone then boundedMaybeBytes v else unreservedMaybeBytes v

def flowSignalItem (shared : Option SharedSignal) (payload : Payload)
    (flowId signal ifState transitionTo : Option Bytes) :
    Metered Err (SharedSignal × SignalItem) := do
  let partition ← boundedOptionalBytes (payload.get "partition_key")
  let flowId ← require flowId
  let signal ← require signal
  let ifState ← require ifState
  let transitionTo ← require transitionTo
  let partition ← require partition
  let nowMs ← require (compactI64 (payload.get "now_ms"))
  reserveIf (partition = none) 4
  reserve 8
  agrees shared ⟨signal, ifState, transitionTo⟩
  pure (⟨signal, ifState, transitionTo⟩, ⟨flowId, partition, nowMs⟩)

def flowSignalFields (shared : Option SharedSignal) (payload : Payload) :
    Metered Err (SharedSignal × SignalItem) := do
  guardFields payload ["id", "signal", "partition_key", "if_state", "transition_to", "now_ms"]
  let flowId ← boundedMaybeBytes (payload.get "id")
  let signal ← sharedField shared (payload.get "signal")
  let ifState ← sharedField shared (payload.get "if_state")
  let transitionTo ← sharedField shared (payload.get "transition_to")
  flowSignalItem shared payload flowId signal ifState transitionTo

/-- A command of the batch, given or built from its arguments. -/
def builtCommand (build : Command → Except Err ProtocolCommand) :
    Command × Option ProtocolCommand → Except Err ProtocolCommand
  | (_, some built) => .ok built
  | (command, none) => build command

def flowSignalBuilt (shared : Option SharedSignal) (built : ProtocolCommand) :
    Metered Err (SharedSignal × SignalItem) :=
  if built.opcode ≠ opcode "FLOW.SIGNAL" ∨ built.flags ≠ 0 then decline
  else match built.payload with
    | .raw _ => decline
    | .fields payload => flowSignalFields shared payload

def flowSignalCommand (build : Command → Except Err ProtocolCommand)
    (shared : Option SharedSignal) (command : Command × Option ProtocolCommand) :
    Metered Err (SharedSignal × SignalItem) := do
  let built ← ofExcept (builtCommand build command)
  flowSignalBuilt shared built

def flowSignalPart (x : SignalItem) : Metered Err Bytes := do
  let idPart ← compactBinary x.id
  let partitionPart ← compactOptionalBinary x.partition
  pure (idPart++(partitionPart++i64 x.nowMs))

def flowSignalBody (valuesOnly : Bool) (shared : SharedSignal) (items : List SignalItem) :
    Metered Err Bytes := do
  let header ← packPipelineHeader (withValuesOnly 11 valuesOnly) items.length
  let signalPart ← compactBinary shared.signal
  let ifStatePart ← compactBinary shared.ifState
  let transitionToPart ← compactBinary shared.transitionTo
  let parts ← each flowSignalPart items
  pure (header++(signalPart++(ifStatePart++(transitionToPart++parts.flatten))))

def pairCommands (commands : List Command) :
    Option (List ProtocolCommand) → Option (List (Command × Option ProtocolCommand))
  | none => some (commands.map fun c => (c, none))
  | some built =>
    if built.length = commands.length then some (commands.zip (built.map some)) else none

def compactFlowSignalPipelinePayloadFromRaw (build : Command → Except Err ProtocolCommand)
    (valuesOnly : Bool) (protocolCommands : Option (List ProtocolCommand))
    (commands : List Command) : Metered Err Bytes := do
  reserve headerSize
  let paired ← require (pairCommands commands protocolCommands)
  match paired with
  | [] => decline
  | command::rest => do
    let first ← flowSignalCommand build none command
    let others ← each (flowSignalCommand build (some first.1)) rest
    flowSignalBody valuesOnly first.1 (first.2::others.map Prod.snd)

end FerricStore.RawPipelines
