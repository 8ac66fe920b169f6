import FerricStore.ClaimRowWidths
import FerricStore.TypedClaimRows
import FerricStore.ValueGrammar

/-!
# Compact collections

A compact response is a marker, a number of items, and the items without tags. Each format
has a decoder of its own that checks every length before it reads. The formats are given as
grammars, and every decoder accepts exactly the bytes of its format whose collections fit
the budget.
-/

set_option autoImplicit false

namespace FerricStore.CompactCollections
open Text Cursor Stateful Budgets ValueCodec Grammars ValueGrammar
open FlowCodec (nullU32)
open ClaimRowWidths (optionalValue)

/-! ## Formats -/

def compactOkList : UInt8 := 0x81
def compactKvGet : UInt8 := 0x82
def compactKvMget : UInt8 := 0x83
def compactFlowRecord : UInt8 := 0x84
def compactFlowRecordList : UInt8 := 0x85
def compactBinaryListList : UInt8 := 0x86
def compactBinaryMapList : UInt8 := 0x87
def compactIntegerList : UInt8 := 0x88
def compactKvMgetFixed : UInt8 := 0x89
def compactPipelineResponse : UInt8 := 0x95

/-- `_FLOW_RECORD_FIELD_KEYS`. -/
def flowRecordFieldKeys : List Bytes :=
  (["", "id", "type", "state", "version", "priority", "partition_key", "payload_ref",
    "result_ref", "error_ref", "payload", "result", "error", "created_at_ms", "updated_at_ms",
    "next_run_at_ms", "lease_deadline_ms", "lease_owner", "lease_token", "fencing_token",
    "attempts", "history_max_events", "history_hot_max_events", "child_groups",
    "parent_flow_id", "parent_partition_key", "root_flow_id", "correlation_id",
    "terminal_retention_until_ms", "ttl_ms", "retention_ttl_ms", "run_state", "value_refs",
    "values", "payload_omitted", "payload_size", "result_omitted", "result_size",
    "error_omitted", "error_size", "max_attempts", "attributes"].map lit).map utf8

def compactBinary : Grammar Bytes := fun b w c =>
  b.length < nullU32 ∧ w = BigEndian.encode 4 b.length++b ∧ c = 0

def optionalBinary : Grammar (Option Bytes)
  | none => fun w c => w = BigEndian.encode 4 nullU32 ∧ c = 0
  | some b => compactBinary b

/-- A binary behind a byte that says whether it is there. -/
def presentBinary : Grammar (Option Bytes)
  | none => fun w c => w = [0] ∧ c = 0
  | some b => fun w c => ∃ rest, w = 1::rest ∧ compactBinary b rest c

def signedInteger : Grammar ℤ := fun z w c =>
  -(256^8 : ℤ) ≤ 2*z ∧ 2*z < 256^8 ∧ w = BigEndian.encodeSigned 8 z ∧ c = 0

/-- The name of a field; a number that is not in the table stands for no name. -/
def fieldKey : Grammar (Option Bytes) := fun key w c =>
  (∃ b rest, key = some b ∧ w = 0::rest ∧ compactBinary b rest c) ∨
    ∃ id : UInt8, id ≠ 0 ∧ key = flowRecordFieldKeys[id.toNat]? ∧ w = [id] ∧ c = 0

/-- A tagged value; the length of a binary is not the one that stands for null. -/
def recordValue : Grammar Value := fun v w c =>
  tagged (maxValueNesting+1) v w c ∧ ∀ b, v = .bytes b → b.length ≠ nullU32

/-- The fields with a name. -/
def namedFields (fields : List (Option Bytes × Value)) : List (Bytes × Value) :=
  fields.filterMap fun field => field.1.map fun key => (key, field.2)

def flowRecord : Grammar (List (Bytes × Value)) := fun record w c =>
  ∃ fields body, w = compactFlowRecord::body ∧ counted (pair fieldKey recordValue) fields body c ∧
    record = namedFields fields ∧ (record.map Prod.fst).Nodup

def flowRecordList : Grammar Value := fun v w c =>
  ∃ records body, w = compactFlowRecordList::body ∧ counted flowRecord records body c ∧
    v = .list (records.map binaryMap)

/-- Four columns, charged as one row. -/
def claimJob : Grammar Value := fun v w c =>
  ∃ id partition lease fencing w₁ w₂ w₃ w₄, compactBinary id w₁ 0 ∧ optionalBinary partition w₂ 0 ∧
    compactBinary lease w₃ 0 ∧ signedInteger fencing w₄ 0 ∧ w = w₁++(w₂++(w₃++w₄)) ∧ c = 4 ∧
    v = .list [.bytes id, optionalValue partition, .bytes lease, .int fencing]

def flowValueRefEntries (ref : Bytes) (partitionKey ownerFlowId : Option Bytes) :
    List (Bytes × Value) :=
  (utf8 (lit "ref"), .bytes ref)::
    ((partitionKey.map fun b => (utf8 (lit "partition_key"), Value.bytes b)).toList++
    (ownerFlowId.map fun b => (utf8 (lit "owner_flow_id"), Value.bytes b)).toList)

def flowValueRef : Grammar Value := fun v w c =>
  ∃ ref partitionKey ownerFlowId w₁ w₂ w₃, compactBinary ref w₁ 0 ∧
    optionalBinary partitionKey w₂ 0 ∧ optionalBinary ownerFlowId w₃ 0 ∧ w = w₁++(w₂++w₃) ∧
    c = (flowValueRefEntries ref partitionKey ownerFlowId).length ∧
    v = binaryMap (flowValueRefEntries ref partitionKey ownerFlowId)

def binaryList : Grammar Value := fun v w c =>
  ∃ bs, counted compactBinary bs w c ∧ v = .list (bs.map .bytes)

def binaryEntries : Grammar Value := fun v w c =>
  ∃ es, countedMap (pair compactBinary compactBinary) es w c ∧
    v = binaryMap (es.map fun e => (e.1, .bytes e.2))

/-- What an item of a pipeline holds, by the byte behind its status. -/
inductive Presence where
  | nil
  | binary
  | record
  | recordList
  | claimJob
  | valueRef
  | binaryList
  | binaryMap
  deriving DecidableEq, Repr

def Presence.code : Presence → UInt8
  | .nil => 0
  | .binary => 1
  | .record => 2
  | .recordList => 3
  | .claimJob => 4
  | .valueRef => 5
  | .binaryList => 6
  | .binaryMap => 7

def Presence.grammar : Presence → Grammar Value
  | .nil => fun v w c => v = .none ∧ w = [] ∧ c = 0
  | .binary => fun v w c => ∃ b, compactBinary b w c ∧ v = .bytes b
  | .record => fun v w c => ∃ record, flowRecord record w c ∧ v = ValueGrammar.binaryMap record
  | .recordList => flowRecordList
  | .claimJob => CompactCollections.claimJob
  | .valueRef => flowValueRef
  | .binaryList => CompactCollections.binaryList
  | .binaryMap => binaryEntries

/-- A status and its value, charged as a list of two. -/
inductive PipelineItem : Value → Bytes → ℕ → Prop where
  | ok {presence : Presence} {v : Value} {w : Bytes} {c : ℕ} : presence.grammar v w c →
    PipelineItem (.list [.str (lit "ok"), v]) (0::presence.code::w) (2+c)
  | busy {b w : Bytes} {c : ℕ} : compactBinary b w c →
    PipelineItem (.list [.str (lit "busy"), .bytes b]) (1::w) (2+c)
  | error {b w : Bytes} {c : ℕ} : compactBinary b w c →
    PipelineItem (.list [.str (lit "error"), .bytes b]) (2::w) (2+c)

/-! ## Reading columns -/

/-- How a decoder ends without a value: `return None`, or an exception. -/
inductive Halt where
  | declined
  | raised (e : Err)
  deriving DecidableEq, Repr

abbrev Reading := Parser Halt

def ferric (message : String) : Halt := .raised (.ferricStore message)

def limit : Halt := .raised .decodedCollectionLimit

def duplicate : Halt := .raised duplicateKey

/-- A length, which is not the one that stands for null, and so many bytes. -/
def binaryOr (short null cut : Halt) : Reading Bytes := do
  let size ← natural short 4
  if size = nullU32 then fail null else field cut size

/-- The inlined reader of most loops. -/
def inlineBinary : Reading Bytes := binaryOr .declined .declined .declined

/-- `_read_compact_binary`. -/
def readCompactBinary : Reading Bytes :=
  binaryOr (.raised truncated) (ferric "protocol compact value expected binary")
    (.raised truncated)

/-- `_read_compact_optional_binary`. -/
def readCompactOptionalBinary : Reading (Option Bytes) := do
  let size ← natural (.raised truncated) 4
  if size = nullU32 then pure none
  else do
    let b ← field (.raised truncated) size
    pure (some b)

/-- `_read_custom_claim_job`. -/
def readCustomClaimJob : Reading Value := do
  charge limit 4
  let idValue ← readCompactBinary
  let partition ← readCompactOptionalBinary
  let lease ← readCompactBinary
  let fencing ← integer (.raised truncated) 8
  pure (.list [.bytes idValue, optionalValue partition, .bytes lease, .int fencing])

/-- `_read_custom_flow_value_ref`. -/
def readCustomFlowValueRef : Reading Value := do
  let ref ← readCompactBinary
  let partitionKey ← readCompactOptionalBinary
  let ownerFlowId ← readCompactOptionalBinary
  charge limit (1+partitionKey.isSome.toNat+ownerFlowId.isSome.toNat)
  pure (binaryMap (flowValueRefEntries ref partitionKey ownerFlowId))

/-- `_read_custom_binary_list`. -/
def readCustomBinaryList : Reading Value := do
  let values ← listOf (.raised truncated) limit readCompactBinary
  pure (.list (values.map .bytes))

/-- `_read_custom_binary_map`. -/
def readCustomBinaryMap : Reading Value := do
  let values ← mapOf (.raised truncated) limit duplicate readCompactBinary readCompactBinary
  pure (binaryMap (values.map fun e => (e.1, .bytes e.2)))

/-- An empty collection of a Flow record; others are left to the value codec. -/
def emptyCollection (message : String) (empty : Value) : Reading Value := fun data offset => do
  let (count, final) ← natural (ferric message) 4 data (offset+1)
  if count = 0 then do
    let (_, final) ← charge limit 0 data final
    pure (empty, final)
  else raising .raised (valueParser (maxValueNesting+1)) data offset

/-- `_decode_flow_record_value_at`. -/
def decodeFlowRecordValueAt : Reading Value := fun data offset =>
  match data[offset]? with
  | none => throw (.raised truncated)
  | some tag =>
    match tag.toNat with
    | 0 => pure (.none, offset+1)
    | 1 => pure (.bool true, offset+1)
    | 2 => pure (.bool false, offset+1)
    | 3 => (do
      let n ← integer (ferric "protocol integer is truncated") 8
      pure (.int n) : Reading Value) data (offset+1)
    | 4 => (do
      let b ← binaryOr (ferric "protocol binary is truncated")
        (ferric "protocol compact value expected binary")
        (ferric "protocol compact value expected binary")
      pure (.bytes b) : Reading Value) data (offset+1)
    | 5 => emptyCollection "protocol list is truncated" (.list []) data offset
    | 6 => emptyCollection "protocol map is truncated" (.dict []) data offset
    | 7 => (do
      let b ← field (ferric "protocol float is truncated") 8
      pure (.float (BitVec.ofNat 64 (BigEndian.decode b))) : Reading Value) data (offset+1)
    | _ => raising .raised (valueParser (maxValueNesting+1)) data offset

def readFieldKey : Reading (Option Bytes) := do
  let keyId ← byte (ferric "protocol compact Flow record is truncated")
  if keyId = 0 then do
    let key ← binaryOr (ferric "protocol compact Flow record key is truncated")
      (ferric "protocol compact Flow record key is invalid")
      (ferric "protocol compact Flow record key is invalid")
    pure (some key)
  else pure flowRecordFieldKeys[keyId.toNat]?

/-- The loop over the fields of a record. -/
def readRecordFields : ℕ → List (Bytes × Value) → Reading (List (Bytes × Value))
  | 0, record => pure record
  | n+1, record => do
    let key ← readFieldKey
    let value ← decodeFlowRecordValueAt
    match key with
    | none => readRecordFields n record
    | some key =>
      if key ∈ record.map Prod.fst then fail duplicate
      else readRecordFields n (record++[(key, value)])

/-- `_read_custom_flow_record`. -/
def readCustomFlowRecord : Reading (List (Bytes × Value)) := do
  let marker ← byte (.raised .indexError)
  if marker ≠ compactFlowRecord then fail (ferric "protocol compact value expected Flow record")
  else do
    let count ← natural (ferric "protocol compact Flow record is truncated") 4
    charge limit count
    readRecordFields count []

/-- `_read_custom_flow_record_list`. -/
def readCustomFlowRecordList : Reading Value := do
  let marker ← byte (.raised .indexError)
  if marker ≠ compactFlowRecordList then
    fail (ferric "protocol compact value expected Flow record list")
  else do
    let records ← listOf (ferric "protocol compact Flow record list is truncated") limit
      readCustomFlowRecord
    pure (.list (records.map binaryMap))

/-! ## Decoders -/

/-- An `except` clause. -/
def excepting (declines : Err → Bool) {α : Type} (x : Bytes → ℕ → EStateM Halt (Option ℕ) α)
    (data : Bytes) (offset : ℕ) : EStateM Halt (Option ℕ) α := fun b =>
  match x data offset b with
  | .ok a b' => .ok a b'
  | .error .declined b' => .error .declined b'
  | .error (.raised e) b' => .error (if declines e then .declined else .raised e) b'

def isIndexError (e : Err) : Bool := e = .indexError || e = .structError

/-- Everything but an exceeded budget and a duplicate key. -/
def isMalformed : Err → Bool
  | .decodedCollectionLimit | .duplicateMapKey _ => false
  | e => isIndexError e || e.isFerricStoreError

def kvMgetItem : Reading (Option Bytes) := do
  let present ← byte .declined
  if present = 1 then do
    let value ← inlineBinary
    pure (some value)
  else if present = 0 then pure none
  else fail .declined

/-- `_try_decode_custom_kv_mget`. -/
def tryDecodeCustomKvMget (data : Bytes) (offset : ℕ) : EStateM Halt (Option ℕ) Value :=
  whole .declined (do
    let values ← listOf .declined limit kvMgetItem
    pure (.list (values.map optionalValue))) data (offset+1)

/-- `_try_decode_custom_kv_mget_fixed`, behind its header. -/
def fixedValues (count size : ℕ) (data : Bytes) (offset : ℕ) : EStateM Halt (Option ℕ) Value :=
  if size = nullU32 ∨ data.length-offset ≠ count*size then throw .declined
  else if count = 0 then
    if offset = data.length then pure (.list []) else throw .declined
  else if size = 0 then pure (.list (List.replicate count (.bytes [])))
  else pure (.list ((List.range count).map fun i => .bytes (slice data (offset+i*size) size)))

/-- `_try_decode_custom_kv_mget_fixed`. -/
def tryDecodeCustomKvMgetFixed (data : Bytes) (offset : ℕ) : EStateM Halt (Option ℕ) Value := do
  let (header, offset) ← field .declined 8 data (offset+1)
  let (_, offset) ← charge limit (BigEndian.decode (header.take 4)) data offset
  fixedValues (BigEndian.decode (header.take 4)) (BigEndian.decode (header.drop 4)) data offset

def binaryListItem : Reading (List Bytes) := do
  let innerCount ← natural .declined 4
  charge limit innerCount
  if innerCount = 0 then pure []
  else if innerCount = 1 then do
    let value ← inlineBinary
    pure [value]
  else room .declined innerCount 4 (times inlineBinary innerCount)

/-- `_try_decode_custom_binary_list_list`. -/
def tryDecodeCustomBinaryListList (data : Bytes) (offset : ℕ) : EStateM Halt (Option ℕ) Value :=
  excepting isIndexError (whole .declined do
    let values ← listOf .declined limit binaryListItem
    pure (.list (values.map fun bs => .list (bs.map .bytes)))) data (offset+1)

def binaryMapItem : Reading (List (Bytes × Bytes)) := do
  let itemCount ← natural .declined 4
  charge limit itemCount
  if itemCount = 0 then pure []
  else distinct duplicate inlineBinary inlineBinary itemCount []

/-- `_try_decode_custom_binary_map_list`. -/
def tryDecodeCustomBinaryMapList (data : Bytes) (offset : ℕ) : EStateM Halt (Option ℕ) Value :=
  excepting isIndexError (whole .declined do
    let values ← listOf .declined limit binaryMapItem
    pure (.list (values.map fun es => binaryMap (es.map fun e => (e.1, .bytes e.2))))) data
      (offset+1)

/-- The integers, which fill the rest of the data. -/
def integerValues (count : ℕ) (data : Bytes) (offset : ℕ) : EStateM Halt (Option ℕ) Value := do
  if offset+count*8 ≠ data.length then throw .declined
  else do
    let (values, _) ← times (integer (.raised .structError) 8) count data offset
    pure (.list (values.map .int))

/-- `_try_decode_custom_integer_list`. -/
def tryDecodeCustomIntegerList : Bytes → ℕ → EStateM Halt (Option ℕ) Value :=
  excepting isMalformed fun data offset => do
    let (marker, offset) ← byte (.raised .indexError) data offset
    if marker ≠ compactIntegerList then throw .declined
    else do
      let (count, offset) ← natural .declined 4 data offset
      let (_, offset) ← charge limit count data offset
      integerValues count data offset

/-- `_try_decode_custom_ok_list`: the marker is not looked at. -/
def tryDecodeCustomOkList : Bytes → ℕ → EStateM Halt (Option ℕ) ℕ :=
  excepting isMalformed fun data offset => do
    if data.length ≠ offset+5 then throw .declined
    else do
      let (count, offset) ← natural (.raised truncated) 4 data (offset+1)
      let _ ← charge limit count data offset
      pure count

/-- `_try_decode_custom_flow_record_list`. -/
def tryDecodeCustomFlowRecordList : Bytes → ℕ → EStateM Halt (Option ℕ) Value :=
  excepting isMalformed (whole .declined readCustomFlowRecordList)

def readPresent (present : UInt8) : Reading Value :=
  match present.toNat with
  | 0 => pure .none
  | 1 => do
    let value ← readCompactBinary
    pure (.bytes value)
  | 2 => do
    let record ← readCustomFlowRecord
    pure (binaryMap record)
  | 3 => readCustomFlowRecordList
  | 4 => readCustomClaimJob
  | 5 => readCustomFlowValueRef
  | 6 => readCustomBinaryList
  | 7 => readCustomBinaryMap
  | _ => fail .declined

/-- The body of the loop over a pipeline response. -/
def readPipelineItem : Reading Value := do
  charge limit 2
  let statusCode ← byte (.raised .indexError)
  if statusCode = 0 then do
    let present ← byte (.raised .indexError)
    let value ← readPresent present
    pure (.list [.str (lit "ok"), value])
  else if statusCode = 1 ∨ statusCode = 2 then do
    let reason ← readCompactBinary
    pure (.list [.str (lit (if statusCode = 1 then "busy" else "error")), .bytes reason])
  else fail .declined

/-- `_try_decode_custom_pipeline_response`. -/
def tryDecodeCustomPipelineResponse (data : Bytes) (offset : ℕ) : EStateM Halt (Option ℕ) Value :=
  excepting isIndexError (whole .declined do
    let values ← listOf (.raised .structError) limit readPipelineItem
    pure (.list values)) data (offset+1)

end FerricStore.CompactCollections
