import FerricStore.AdjacentGroups
import FerricStore.CreateManyGroups
import FerricStore.QueuedArguments

/-!
# The autobatching client

Creates, completes, transitions, retries, fails and cancels are queued and sent as items of
commands for many flows. What the operations of a group share is taken from its first one, so
the key of an operation holds everything that is not its own in the items. Operations that a
command for many flows cannot express are called directly.
-/

set_option autoImplicit false

namespace FerricStore.Autobatch

open Text BatchFingerprints QueuedArguments FlowOptions MutationArguments ManyArguments
  CreateManyArguments

/-- What the mappings and lists hold that operations know by identity. -/
structure Heap where
  values : ℕ → Named Arg
  refs : ℕ → Named Str
  names : ℕ → List Str

structure NamedArgs where
  values : Option ℕ := none
  valueRefs : Option ℕ := none
  dropValues : Option ℕ := none
  overrideValues : Option ℕ := none
  deriving DecidableEq

/-- The arguments of `complete`, `transition`, `retry` and `fail`; each takes its own. -/
structure Mutation where
  id : Str
  leaseToken : Bytes
  fencingToken : ℤ
  partitionKey : Option PartitionKey := none
  fromState : Str := []
  toState : Str := []
  result : Arg := .none
  error : Arg := .none
  payload : Arg := .none
  named : NamedArgs := {}
  stateMeta : Option (Named Value) := none
  ttlMs : Option ℤ := none
  runAtMs : Option ℤ := none
  nowMs : Option ℤ := none
  priority : Option ℤ := none
  returnRecord : Bool := false

structure Cancel where
  id : Str
  fencingToken : ℤ
  leaseToken : Option Bytes := none
  partitionKey : Option PartitionKey := none
  reason : Arg := .none
  named : NamedArgs := {}
  stateMeta : Option (Named Value) := none
  ttlMs : Option ℤ := none
  nowMs : Option ℤ := none
  returnRecord : Bool := false

structure Create where
  id : Str
  type : Str
  state : Str := lit "queued"
  payload : Arg := .none
  partitionKey : Option PartitionKey := none
  parentFlowId : Option Str := none
  rootFlowId : Option Str := none
  correlationId : Option Str := none
  runAtMs : Option ℤ := none
  nowMs : Option ℤ := none
  priority : Option ℤ := none
  idempotent : Option Bool := none
  maxActiveMs : Value := .none
  stateMeta : Option (Named Value) := none
  values : Option ℕ := none
  valueRefs : Option ℕ := none
  returnRecord : Bool := false

inductive Verb where
  | complete
  | transition
  | retry
  | fail
  deriving DecidableEq

def Verb.kind : Verb → MutationKind
  | .complete => .complete
  | .transition => .transition
  | .retry => .retry
  | .fail => .fail

def Verb.many : Verb → ManyKind
  | .complete => .complete
  | .transition => .transition
  | .retry => .retry
  | .fail => .fail

inductive Operation where
  | mutate (verb : Verb) (m : Mutation)
  | cancel (c : Cancel)
  | create (c : Create)

section Encoding

variable (heap : Heap) (encode : Arg → Bytes)

/-- An argument that is written encoded, or left out. -/
def encodedArg (a : Arg) : Value := if a.isNone then .none else .bytes (encode a)

/-- The arguments of a call are encoded already. -/
def wireCodec : Codec
  | .bytes b => b
  | _ => []

theorem keys_encoded {β γ : Type} (f : β → γ) (d : Dict Str β) :
    Dict.keys (d.map fun e => (e.1, f e.2)) = Dict.keys d := by
  simp [Dict.keys]

def encodedNamed (d : Named Arg) : Named Value :=
  ⟨d.val.map fun e => (e.1, .bytes (encode e.2)), by
    rw [keys_encoded fun a => Value.bytes (encode a)]
    exact d.property⟩

def heldValues (id : Option ℕ) : Named Value :=
  (id.map fun id => encodedNamed encode (heap.values id)).getD Named.empty

def heldRefs (id : Option ℕ) : Named Str := (id.map heap.refs).getD Named.empty

def heldNames (id : Option ℕ) : List Str := (id.map heap.names).getD []

def namedOptions (n : NamedArgs) (stateMeta : Option (Named Value)) : NamedOptions where
  values := heldValues heap encode n.values
  valueRefs := heldRefs heap n.valueRefs
  dropValues := heldNames heap n.dropValues
  overrideValues := heldNames heap n.overrideValues
  stateMeta := stateMeta.getD Named.empty

end Encoding

section Direct

variable (rt : Runtime) (heap : Heap) (encode : Arg → Bytes) (clock : ℤ)

/-- The call of the client that the operation stands for. -/
def directCall (m : Mutation) : MutationCall where
  id := m.id
  leaseToken := m.leaseToken
  fencingToken := m.fencingToken
  fromState := m.fromState
  toState := m.toState
  partitionKey := m.partitionKey
  result := encodedArg encode m.result
  error := encodedArg encode m.error
  payload := encodedArg encode m.payload
  options := namedOptions heap encode m.named m.stateMeta
  ttlMs := m.ttlMs
  runAtMs := m.runAtMs
  nowMs := m.nowMs
  priority := m.priority

/-- The arguments of `FLOW.CANCEL` that `cancel` sends. -/
def cancelCommandArgs (c : Cancel) : Except Err (List Value) :=
  if c.fencingToken < 0 then .error .valueError
  else
    let options := namedOptions heap encode c.named c.stateMeta
    .ok ([word "FLOW.CANCEL", .str c.id, word "FENCING", .int c.fencingToken, word "NOW",
        .int (c.nowMs.getD clock)]++
      (append "LEASE_TOKEN" (c.leaseToken.map Value.bytes)++
        (append "PARTITION" (c.partitionKey.map PartitionKey.value)++
          (appendEncoded "REASON" wireCodec (encodedArg encode c.reason)++
            (intArgs "TTL" c.ttlMs++(appendStateMeta options++
              appendNamedValues wireCodec options))))))

/-- The arguments of `FLOW.CREATE` that `create` sends. -/
def createCommandArgs (c : Create) : Except Err (List Value) := do
  let now := c.nowMs.getD clock
  let priority ← appendPriority c.priority
  let limit ← normalizeMaxActive rt c.maxActiveMs
  .ok ([word "FLOW.CREATE", .str c.id, word "TYPE", .str c.type, word "STATE", .str c.state,
      word "NOW", .int now]++
    (append "PARTITION" (c.partitionKey.map PartitionKey.value)++
      (appendEncoded "PAYLOAD" wireCodec (encodedArg encode c.payload)++
        (append "PARENT_FLOW_ID" (c.parentFlowId.map Value.str)++
          (append "ROOT_FLOW_ID" (c.rootFlowId.map Value.str)++
            (append "CORRELATION_ID" (c.correlationId.map Value.str)++
              (intArgs "RUN_AT" (some (c.runAtMs.getD now))++(priority++
                (appendBool "IDEMPOTENT" c.idempotent++
                  (append "MAX_ACTIVE_MS" (if limit.isNone then none else some limit)++
                    (appendEntries "STATE_META" (c.stateMeta.getD Named.empty).val++
                      (appendEntries "VALUE" (encoded wireCodec (heldValues heap encode c.values))++
                        appendEntries "VALUE_REF" (references (heldRefs heap c.valueRefs))))))))))))))

/-- What the direct call of an operation sends. -/
def directArgs : Operation → Except Err (List Value)
  | .mutate verb m => commandArgs wireCodec clock (directCall heap encode m) verb.kind
  | .cancel c => cancelCommandArgs heap encode clock c
  | .create c => createCommandArgs rt heap encode clock c

/-- How an operation is submitted. -/
inductive Route where
  | rejected (e : Err)
  | direct
  | batch
  deriving DecidableEq

def route : Operation → Route
  | .mutate _ m =>
    if m.returnRecord || m.partitionKey.isNone || m.stateMeta.isSome then .direct else .batch
  | .cancel c =>
    if c.returnRecord || c.partitionKey.isNone || c.stateMeta.isSome then .direct else .batch
  | .create c => match normalizeMaxActive rt c.maxActiveMs with
    | .error e => .rejected e
    | .ok _ =>
      if c.returnRecord || c.parentFlowId.isSome || c.rootFlowId.isSome ||
          c.correlationId.isSome || c.stateMeta.isSome then .direct
      else .batch

end Direct

section Keys

inductive KeyPart where
  | word (s : String)
  | text (s : Str)
  | number (n : Option ℤ)
  | flag (b : Option Bool)
  | limit (v : Value)
  | print (p : Fingerprint)

def KeyPart.same : KeyPart → KeyPart → Bool
  | .word a, .word b => a = b
  | .text a, .text b => a = b
  | .number a, .number b => a = b
  | .flag a, .flag b => a = b
  | .limit a, .limit b => a = b
  | .print a, .print b => BatchFingerprints.same a b
  | _, _ => false

def sameKey : List KeyPart → List KeyPart → Bool
  | [], [] => true
  | a::as, b::bs => a.same b && sameKey as bs
  | _, _ => false

/-- `_batch_key_value` -/
def batchKeyValue (a : Arg) : KeyPart := .print (queuedBatchFingerprint a)

def heldArg (id : Option ℕ) : Arg := (id.map .held).getD .none

/-- `_batch_named_key` -/
def batchNamedKey (n : NamedArgs) : List KeyPart :=
  [batchKeyValue (heldArg n.values), batchKeyValue (heldArg n.valueRefs),
    batchKeyValue (heldArg n.dropValues), batchKeyValue (heldArg n.overrideValues)]

def mutationKey (m : Mutation) : Verb → List KeyPart
  | .complete => [KeyPart.word "complete", batchKeyValue m.result, batchKeyValue m.payload,
      .number m.ttlMs, .number m.nowMs]++batchNamedKey m.named
  | .transition => [KeyPart.word "transition", .text m.fromState, .text m.toState,
      batchKeyValue m.payload, .number m.runAtMs, .number m.nowMs, .number m.priority]++
        batchNamedKey m.named
  | .retry => [KeyPart.word "retry", batchKeyValue m.error, batchKeyValue m.payload,
      .number m.runAtMs, .number m.nowMs]++batchNamedKey m.named
  | .fail => [KeyPart.word "fail", batchKeyValue m.error, batchKeyValue m.payload,
      .number m.ttlMs, .number m.nowMs]++batchNamedKey m.named

/-- The time limit of a create after `normalize_optional_max_active_ms`. -/
def limitOf (rt : Runtime) (c : Create) : Value :=
  (normalizeMaxActive rt c.maxActiveMs).toOption.getD .none

def key (rt : Runtime) : Operation → List KeyPart
  | .mutate verb m => mutationKey m verb
  | .cancel c => [KeyPart.word "cancel", batchKeyValue c.reason, .number c.ttlMs, .number c.nowMs]++
      batchNamedKey c.named
  | .create c =>
    [.word (if c.partitionKey.isNone then "create-auto" else "create"), .text c.type,
      .text c.state, .number c.runAtMs, .number c.nowMs, .number c.priority, .flag c.idempotent,
      .limit (limitOf rt c)]

end Keys

section Groups

variable (rt : Runtime) (heap : Heap) (encode : Arg → Bytes)

/-- `_claimed_item` -/
def claimedItem (m : Mutation) : ClaimedFlow := ⟨m.id, m.leaseToken, m.fencingToken, m.partitionKey⟩

/-- `_fenced_item` -/
def fencedItem (includeLease : Bool) (id : Str) (fencing : ℤ) (lease : Option Bytes)
    (partition : Option PartitionKey) : FencedItem :=
  ⟨id, fencing, if includeLease then lease else none, partition⟩

def Operation.mutation? : Operation → Option Mutation
  | .mutate _ m => some m
  | _ => none

def Operation.cancel? : Operation → Option Cancel
  | .cancel c => some c
  | _ => none

def Operation.create? : Operation → Option Create
  | .create c => some c
  | _ => none

/-- The call for many flows; what is not in the items is that of the first operation. -/
def manyCall (ops : List Operation) (m : Mutation) : ManyCall where
  fromState := m.fromState
  toState := m.toState
  result := encodedArg encode m.result
  error := encodedArg encode m.error
  payload := encodedArg encode m.payload
  options := namedOptions heap encode m.named none
  ttlMs := m.ttlMs
  runAtMs := m.runAtMs
  nowMs := m.nowMs
  priority := m.priority
  independent := some true
  claimed := (ops.filterMap Operation.mutation?).map claimedItem
  fenced := (ops.filterMap Operation.mutation?).map fun m =>
    fencedItem true m.id m.fencingToken (some m.leaseToken) m.partitionKey

def cancelManyCall (ops : List Operation) (c : Cancel) : ManyCall where
  reason := encodedArg encode c.reason
  options := namedOptions heap encode c.named none
  ttlMs := c.ttlMs
  nowMs := c.nowMs
  independent := some true
  fenced := (ops.filterMap Operation.cancel?).map fun c =>
    fencedItem false c.id c.fencingToken c.leaseToken c.partitionKey

/-- The one partition key of all creates, if there is one. -/
def onePartition : List (Option PartitionKey) → Option PartitionKey
  | [] => none
  | k::ks => if ks.all (· = k) then k else none

def createItem (one : Option PartitionKey) (c : Create) : CreateItem where
  id := c.id
  payload := .bytes (encode c.payload)
  partitionKey := if one.isSome then none else c.partitionKey
  values := heldValues heap encode c.values
  valueRefs := heldRefs heap c.valueRefs

def createManyCall (ops : List Operation) (c : Create) : CreateManyCall where
  partitionKey := onePartition ((ops.filterMap Operation.create?).map (·.partitionKey))
  items := (ops.filterMap Operation.create?).map
    (createItem heap encode (onePartition ((ops.filterMap Operation.create?).map (·.partitionKey))))
  type := c.type
  state := c.state
  runAtMs := c.runAtMs
  nowMs := c.nowMs
  priority := c.priority
  idempotent := c.idempotent
  maxActiveMs := limitOf rt c
  independent := some true

/-- What `_flush_group` sends for a group. -/
def groupArgs (clock : ℤ) (agrees : Matcher) : List Operation → Except Err (List Value)
  | [] => .error .valueError
  | .mutate verb m::ops =>
    manyArgs wireCodec clock (manyCall heap encode (.mutate verb m::ops) m) verb.many
  | .cancel c::ops => manyArgs wireCodec clock (cancelManyCall heap encode (.cancel c::ops) c) .cancel
  | .create c::ops =>
    createManyArgs rt wireCodec clock (createManyCall rt heap encode (.create c::ops) c) agrees

end Groups

end FerricStore.Autobatch
