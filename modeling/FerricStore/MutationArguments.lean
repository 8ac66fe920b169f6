import FerricStore.OptionGroups

/-!
# The arguments of single-flow mutations

Completing, moving, retrying, failing and continuing a flow write the same options
in their own order. A call holds the arguments of all five; each builder takes its
own. The codec is any function to bytes, and the clock is read once.
-/

set_option autoImplicit false

namespace FerricStore.MutationArguments
open Text FlowOptions

abbrev Codec := Value → Bytes

inductive PartitionKey where
  | text (s : Str)
  | bytes (b : Bytes)
  deriving DecidableEq, Repr

def PartitionKey.value : PartitionKey → Value
  | .text s => .str s
  | .bytes b => .bytes b

/-- A mapping argument, every name once. -/
abbrev Named (β : Type) := {d : Dict Str β // (Dict.keys d).Nodup}

/-- `(entries or {}).items()` of an argument that was not given. -/
def Named.empty {β : Type} : Named β := ⟨[], List.nodup_nil⟩

structure NamedOptions where
  values : Named Value := Named.empty
  valueRefs : Named Str := Named.empty
  dropValues : List Str := []
  overrideValues : List Str := []
  attributesMerge : Named Value := Named.empty
  attributesDelete : List Str := []
  stateMeta : Named Value := Named.empty

structure MutationCall where
  id : Str
  leaseToken : Bytes
  fencingToken : ℤ
  fromState : Str := []
  toState : Str := []
  partitionKey : Option PartitionKey := none
  leaseMs : ℤ := 0
  result : Value := .none
  error : Value := .none
  payload : Value := .none
  options : NamedOptions := {}
  ttlMs : Option ℤ := none
  runAtMs : Option ℤ := none
  nowMs : Option ℤ := none
  priority : Option ℤ := none
  worker : Option Str := none
  returnJob : Bool := false

def word (s : String) : Value := .str (lit s)

/-- `_append`. -/
def append (name : String) : Option Value → List Value
  | some v => [word name, v]
  | none => []

/-- `_append_encoded`. -/
def appendEncoded (name : String) (codec : Codec) (v : Value) : List Value :=
  if v.isNone then [] else [word name, .bytes (codec v)]

/-- `_append_priority`. -/
def appendPriority : Option ℤ → Except Err (List Value)
  | none => .ok []
  | some n => if n < 0 ∨ 2 < n then .error .valueError else .ok [word "PRIORITY", .int n]

def appendEntries (name : String) (entries : Dict Str Value) : List Value :=
  entries.flatMap fun e => [word name, .str e.1, e.2]

def appendNames (name : String) (items : List Str) : List Value :=
  items.flatMap fun s => [word name, .str s]

def encoded (codec : Codec) (values : Named Value) : Dict Str Value :=
  values.val.map fun e => (e.1, .bytes (codec e.2))

def references (refs : Named Str) : Dict Str Value := refs.val.map fun e => (e.1, .str e.2)

/-- `_append_named_values`. -/
def appendNamedValues (codec : Codec) (o : NamedOptions) : List Value :=
  appendEntries "VALUE" (encoded codec o.values)++
    (appendEntries "VALUE_REF" (references o.valueRefs)++
      (appendNames "DROP_VALUE" o.dropValues++appendNames "OVERRIDE_VALUE" o.overrideValues))

/-- `_append_attributes`, without attributes of a new flow. -/
def appendAttributes (o : NamedOptions) : List Value :=
  if o.attributesMerge.val = [] ∧ o.attributesDelete = [] then []
  else appendEntries "ATTRIBUTE_MERGE" o.attributesMerge.val++
    appendNames "ATTRIBUTE_DELETE" o.attributesDelete

/-- `_append_state_meta`. -/
def appendStateMeta (o : NamedOptions) : List Value :=
  appendEntries "STATE_META" o.stateMeta.val

/-- The options that end every mutation. -/
def appendNamed (codec : Codec) (o : NamedOptions) : List Value :=
  appendAttributes o++(appendStateMeta o++appendNamedValues codec o)

/-- `_validate_claim_guard`. -/
def validateClaimGuard (leaseToken : Bytes) (fencingToken : ℤ) : Except Err Unit :=
  if leaseToken = [] then .error .valueError
  else if fencingToken < 0 then .error .valueError
  else .ok ()

section Builders

variable (codec : Codec) (clock : ℤ) (c : MutationCall)

def MutationCall.now : ℤ := c.nowMs.getD clock

def partitionArgs : List Value := append "PARTITION" (c.partitionKey.map PartitionKey.value)

def intArgs (name : String) (v : Option ℤ) : List Value := append name (v.map .int)

/-- `_complete_command_args`. -/
def completeCommandArgs : Except Err (List Value) := do
  validateClaimGuard c.leaseToken c.fencingToken
  .ok ([word "FLOW.COMPLETE", .str c.id, .bytes c.leaseToken, word "FENCING",
      .int c.fencingToken, word "NOW", .int (c.now clock)]++
    (partitionArgs c++(appendEncoded "RESULT" codec c.result++
      (appendEncoded "PAYLOAD" codec c.payload++(intArgs "TTL" c.ttlMs++
        appendNamed codec c.options)))))

/-- `_transition_command_args`. -/
def transitionCommandArgs : Except Err (List Value) := do
  validateClaimGuard c.leaseToken c.fencingToken
  let priority ← appendPriority c.priority
  .ok ([word "FLOW.TRANSITION", .str c.id, .str c.fromState, .str c.toState,
      word "LEASE_TOKEN", .bytes c.leaseToken, word "FENCING", .int c.fencingToken,
      word "NOW", .int (c.now clock)]++
    (partitionArgs c++(appendEncoded "PAYLOAD" codec c.payload++
      (intArgs "RUN_AT" (some (c.runAtMs.getD (c.now clock)))++(priority++
        appendNamed codec c.options)))))

/-- `_retry_command_args`. -/
def retryCommandArgs : Except Err (List Value) := do
  validateClaimGuard c.leaseToken c.fencingToken
  .ok ([word "FLOW.RETRY", .str c.id, .bytes c.leaseToken, word "FENCING",
      .int c.fencingToken, word "NOW", .int (c.now clock)]++
    (partitionArgs c++(appendEncoded "ERROR" codec c.error++
      (appendEncoded "PAYLOAD" codec c.payload++(intArgs "RUN_AT" c.runAtMs++
        appendNamed codec c.options)))))

/-- `_fail_command_args`. -/
def failCommandArgs : Except Err (List Value) := do
  validateClaimGuard c.leaseToken c.fencingToken
  .ok ([word "FLOW.FAIL", .str c.id, .bytes c.leaseToken, word "FENCING",
      .int c.fencingToken, word "NOW", .int (c.now clock)]++
    (partitionArgs c++(appendEncoded "ERROR" codec c.error++
      (appendEncoded "PAYLOAD" codec c.payload++(intArgs "TTL" c.ttlMs++
        appendNamed codec c.options)))))

/-- `_step_continue_args`. -/
def stepContinueArgs : Except Err (List Value) := do
  validateClaimGuard c.leaseToken c.fencingToken
  .ok ([word "FLOW.STEP_CONTINUE", .str c.id, .bytes c.leaseToken, .str c.fromState,
      .str c.toState, word "FENCING", .int c.fencingToken, word "LEASE_MS", .int c.leaseMs,
      word "NOW", .int (c.now clock)]++
    (partitionArgs c++(append "WORKER" (c.worker.map Value.str)++
      (appendEncoded "PAYLOAD" codec c.payload++
        ((if c.returnJob then [word "RETURN", word "JOBS_COMPACT"] else [])++
          appendNamed codec c.options)))))

end Builders

inductive MutationKind where
  | complete
  | transition
  | retry
  | fail
  | stepContinue
  deriving DecidableEq, Repr

def commandArgs (codec : Codec) (clock : ℤ) (c : MutationCall) :
    MutationKind → Except Err (List Value)
  | .complete => completeCommandArgs codec clock c
  | .transition => transitionCommandArgs codec clock c
  | .retry => retryCommandArgs codec clock c
  | .fail => failCommandArgs codec clock c
  | .stepContinue => stepContinueArgs codec clock c

/-- How many arguments stand before the options, the command name among them. -/
def optionStart : MutationKind → ℕ
  | .complete | .retry | .fail => 3
  | .transition => 4
  | .stepContinue => 5

section Fields

variable (codec : Codec) (clock : ℤ) (c : MutationCall)

/-- A field that the call may leave out. -/
def givenField (field : String) : Option Value → Payload
  | some v => [(field, v)]
  | none => []

def encodedField (field : String) (v : Value) : Payload :=
  if v.isNone then [] else [(field, .bytes (codec v))]

/-- The maps and lists of a call. -/
def namedFieldsOf (o : NamedOptions) : Payload :=
  mapField "attributes_merge" o.attributesMerge.val++
    (listField "attributes_delete" o.attributesDelete++
      (mapField "state_meta" o.stateMeta.val++(mapField "values" (encoded codec o.values)++
        (mapField "value_refs" (references o.valueRefs)++
          (listField "drop_values" o.dropValues++
            listField "override_values" o.overrideValues)))))

def partitionField : Payload := givenField "partition_key" (c.partitionKey.map PartitionKey.value)

def intField (field : String) (v : Option ℤ) : Payload := givenField field (v.map .int)

/-- The fields that a call means, in the order of its options. -/
def meantFields : MutationKind → Payload
  | .complete =>
    [("fencing_token", Value.int c.fencingToken), ("now_ms", .int (c.now clock))]++
      (partitionField c++(encodedField codec "result" c.result++
        (encodedField codec "payload" c.payload++(intField "ttl_ms" c.ttlMs++
          namedFieldsOf codec c.options))))
  | .transition =>
    [("lease_token", Value.bytes c.leaseToken), ("fencing_token", .int c.fencingToken),
        ("now_ms", .int (c.now clock))]++
      (partitionField c++(encodedField codec "payload" c.payload++
        (intField "run_at_ms" (some (c.runAtMs.getD (c.now clock)))++
          (intField "priority" c.priority++namedFieldsOf codec c.options))))
  | .retry =>
    [("fencing_token", Value.int c.fencingToken), ("now_ms", .int (c.now clock))]++
      (partitionField c++(encodedField codec "error" c.error++
        (encodedField codec "payload" c.payload++(intField "run_at_ms" c.runAtMs++
          namedFieldsOf codec c.options))))
  | .fail =>
    [("fencing_token", Value.int c.fencingToken), ("now_ms", .int (c.now clock))]++
      (partitionField c++(encodedField codec "error" c.error++
        (encodedField codec "payload" c.payload++(intField "ttl_ms" c.ttlMs++
          namedFieldsOf codec c.options))))
  | .stepContinue =>
    [("fencing_token", Value.int c.fencingToken), ("lease_ms", .int c.leaseMs),
        ("now_ms", .int (c.now clock))]++
      (partitionField c++(givenField "worker" (c.worker.map Value.str)++
        (encodedField codec "payload" c.payload++
          ((if c.returnJob then [("return", .str (lit "jobs_compact"))] else [])++
            namedFieldsOf codec c.options))))

end Fields

end FerricStore.MutationArguments
