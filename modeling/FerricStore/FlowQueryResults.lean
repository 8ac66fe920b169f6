import FerricStore.RoutingTopology
import FerricStore.ValueGrammar
import FerricStore.Utf8

/-!
# The two decoders of query results

A negotiated connection receives a query result in a fixed schema: a tag, a kind, quality codes,
usage counters, and a page of records or a count. A record is a bitmap of its fields and the
values of these fields. Any other connection receives a map, which the generic decoder checks.
-/

set_option autoImplicit false

namespace FerricStore.FlowQueryResults
open Text Cursor Stateful Budgets ValueCodec ValueGrammar Grammars

def tag : UInt8 := 0xA0
def maxRecords : ℕ := 100
def minCursorBytes : ℕ := 16
def maxCursorBytes : ℕ := 4096
def maxInteger : ℕ := 2^63-1
def nullU32 : ℕ := 0xFFFFFFFF
def contract : String := "ferric.flow.query.result/v1"

def recordFields : List String :=
  ["id", "type", "state", "version", "priority", "partition_key", "created_at_ms", "updated_at_ms",
    "next_run_at_ms", "lease_deadline_ms", "attempts", "run_state", "max_active_ms",
    "parent_flow_id", "root_flow_id", "correlation_id", "attributes", "state_meta", "event_id",
    "fields"]

def recordFieldMask : ℕ := 2^recordFields.length-1

def exactnessValues : List String := ["authoritative", "projected_exact", "exact", "not_applicable"]
def freshnessValues : List String := ["current", "projection_watermark", "not_applicable"]
def coverageValues : List String := ["complete", "unavailable"]
def paginationValues : List String := ["none", "complete", "authenticated_seek", "live_seek"]

/-- The codes of the four quality fields. -/
structure Quality where
  exactness : Fin exactnessValues.length
  freshness : Fin freshnessValues.length
  coverage : Fin coverageValues.length
  pagination : Fin paginationValues.length
  deriving DecidableEq

/-- `FlowQueryUsage`. -/
structure Usage where
  rangeSeeks : ℕ
  rangePages : ℕ
  scannedEntries : ℕ
  scannedBytes : ℕ
  hydratedRecords : ℕ
  residualChecks : ℕ
  duplicateEntries : ℕ
  resultRecords : ℕ
  responseBytes : ℕ
  memoryHighWaterBytes : ℕ
  wallTimeUs : ℕ
  deriving DecidableEq

def usageFields : List String :=
  ["range_seeks", "range_pages", "scanned_entries", "scanned_bytes", "hydrated_records",
    "residual_checks", "duplicate_entries", "result_records", "response_bytes",
    "memory_high_water_bytes", "wall_time_us"]

namespace Usage

/-- The counters in the order of their fields. -/
def counters (u : Usage) : List ℕ :=
  [u.rangeSeeks, u.rangePages, u.scannedEntries, u.scannedBytes, u.hydratedRecords,
    u.residualChecks, u.duplicateEntries, u.resultRecords, u.responseBytes,
    u.memoryHighWaterBytes, u.wallTimeUs]

def ofCounters : List ℕ → Usage
  | [a, b, c, d, e, f, g, h, i, j, k] => ⟨a, b, c, d, e, f, g, h, i, j, k⟩
  | _ => ⟨0, 0, 0, 0, 0, 0, 0, 0, 0, 0, 0⟩

/-- `_valid_usage`. -/
def valid (u : Usage) : Bool :=
  u.hydratedRecords ≤ u.scannedEntries && u.duplicateEntries ≤ u.scannedEntries &&
    u.rangePages ≤ u.scannedEntries+u.rangeSeeks && u.residualChecks ≤ u.scannedEntries*12

end Usage

/-- The fields of a record and their values. -/
abbrev Record := List (String × Value)

inductive Body where
  | page (cursor : Option Bytes) (records : List Record)
  | count (n : ℕ)

structure CompactResult where
  quality : Quality
  usage : Usage
  body : Body

/-! ### The result as a map -/

/-- A map under the encoded names of its fields. -/
def named (fields : List (String × Value)) : Value :=
  .dict (fields.map fun f => (.bytes (utf8 (lit f.1)), f.2))

def word (s : String) : Value := .bytes (utf8 (lit s))

def Quality.value (q : Quality) : Value :=
  named [("exactness", word (exactnessValues.get q.exactness)),
    ("freshness", word (freshnessValues.get q.freshness)),
    ("coverage", word (coverageValues.get q.coverage)),
    ("pagination", word (paginationValues.get q.pagination))]

def Usage.value (u : Usage) : Value :=
  named (usageFields.zip (u.counters.map fun (n : ℕ) => Value.int n))

def pageValue : Option Bytes → Value
  | none => named [("has_more", .bool false), ("cursor", .none)]
  | some cursor => named [("has_more", .bool true), ("cursor", .bytes cursor)]

def CompactResult.value (r : CompactResult) : Value :=
  match r.body with
  | .page cursor records => named [("version", word contract),
      ("records", .list (records.map named)), ("page", pageValue cursor),
      ("quality", r.quality.value), ("usage", r.usage.value)]
  | .count n => named [("version", word contract),
      ("result", named [("kind", word "count"), ("value", .int n)]),
      ("quality", r.quality.value), ("usage", r.usage.value)]

/-! ### The compact decoder -/

def truncatedResult : Err := .ferricStore "compact FLOW.QUERY result is truncated"

/-- `_require`. -/
def require (size : ℕ) : Parser Err Unit := fun data offset =>
  if offset+size > data.length then throw truncatedResult else pure ((), offset)

def refuse {α : Type} (message : String) : Parser Err α := fail (.ferricStore message)

/-- `_read_u32` and `_read_u64`. -/
def readNatural (size : ℕ) : Parser Err ℕ := do
  require size
  natural .structError size

/-- A quality code; the index raises when the byte is missing. -/
def readCode (n : ℕ) : Parser Err (Fin n) := do
  let code ← byte .indexError
  if h : code.toNat < n then pure ⟨code.toNat, h⟩
  else refuse "invalid compact FLOW.QUERY quality code"

def readQuality : Parser Err Quality := do
  let exactness ← readCode exactnessValues.length
  let freshness ← readCode freshnessValues.length
  let coverage ← readCode coverageValues.length
  let pagination ← readCode paginationValues.length
  pure ⟨exactness, freshness, coverage, pagination⟩

def readCounter : Parser Err ℕ := do
  let n ← readNatural 8
  if n > maxInteger then refuse "compact FLOW.QUERY usage exceeds signed 64-bit range" else pure n

def readUsage : Parser Err Usage := do
  let counters ← times readCounter usageFields.length
  if ¬ (Usage.ofCounters counters).valid then
    refuse "compact FLOW.QUERY usage counters are inconsistent"
  else pure (Usage.ofCounters counters)

def invalidCursor {α : Type} : Parser Err α := refuse "invalid compact FLOW.QUERY page cursor"

def cursorMark : Str := lit "fqc1_"

/-- `_read_page`; a page has more exactly when it has a cursor. -/
def readPage : Parser Err (Option Bytes) := do
  require 5
  let hasMore ← byte .indexError
  let size ← natural .structError 4
  if hasMore = 0 ∧ size = nullU32 then pure none
  else if hasMore ≠ 1 ∨ size < minCursorBytes ∨ size = nullU32 ∨ size > maxCursorBytes then
    invalidCursor
  else do
    let cursor ← field truncatedResult size
    if decode cursor = none then invalidCursor
    else if ¬ (utf8 cursorMark).isPrefixOf cursor then invalidCursor
    else pure (some cursor)

/-- `int.bit_count`. -/
def bitCount (n : ℕ) : ℕ := (List.range n.size).countP n.testBit

/-- `decode_value_at` on the same budget. -/
def readValue : Parser Err Value := fun data offset => decodeValueAt data offset

/-- The fields from an index on whose bits are set. -/
def readFields (bitmap : ℕ) : ℕ → List String → Parser Err Record
  | _, [] => pure []
  | index, name::names =>
    if bitmap.testBit index then do
      let v ← readValue
      let rest ← readFields bitmap (index+1) names
      pure ((name, v)::rest)
    else readFields bitmap (index+1) names

/-- `_read_record`. -/
def readRecord : Parser Err Record := do
  let bitmap ← readNatural 4
  if bitmap.ldiff recordFieldMask ≠ 0 then
    refuse "compact FLOW.QUERY record contains reserved fields"
  else do
    charge .decodedCollectionLimit (bitCount bitmap)
    readFields bitmap 0 recordFields

def readBody (kind : UInt8) (usage : Usage) : Parser Err Body :=
  if kind = 0 then do
    let cursor ← readPage
    let count ← readNatural 4
    if count > maxRecords then refuse "compact FLOW.QUERY page exceeds 100 records"
    else if usage.resultRecords ≠ count ∨ count > usage.scannedEntries then
      refuse "compact FLOW.QUERY record usage is inconsistent"
    else do
      charge .decodedCollectionLimit count
      let records ← times readRecord count
      pure (.page cursor records)
  else if kind = 1 then
    if usage.resultRecords ≠ 1 then refuse "compact FLOW.QUERY count usage is inconsistent"
    else do
      let count ← readNatural 8
      if count > maxInteger then refuse "compact FLOW.QUERY count exceeds signed 64-bit range"
      else pure (.count count)
  else refuse "unsupported compact FLOW.QUERY result kind"

def readSections : Parser Err CompactResult := do
  let kind ← byte .indexError
  let quality ← readQuality
  let usage ← readUsage
  let body ← readBody kind usage
  pure ⟨quality, usage, body⟩

/-- The tag, and what stands behind it; nothing comes back for another tag. -/
def readTagged : Parser Err (Option CompactResult) := do
  require 94
  let found ← byte .indexError
  if found ≠ tag then pure none
  else do
    let r ← readSections
    pure (some r)

/-- The checks after the last read. -/
def checkEnd (start : ℕ) (r : CompactResult) : Parser Err CompactResult := fun data offset =>
  if offset ≠ data.length then
    throw (.ferricStore "compact FLOW.QUERY result has trailing bytes")
  else if r.usage.responseBytes ≠ data.length-start then
    throw (.ferricStore "compact FLOW.QUERY response_bytes does not match payload")
  else pure (r, offset)

/-- The body of the `try` statement. -/
def readResult (data : Bytes) (start : ℕ) : Decoding (Option CompactResult) := do
  let (found, offset) ← readTagged data start
  match found with
  | none => pure none
  | some r => do
    let (r, _) ← checkEnd start r data offset
    pure (some r)

/-- `decode_compact_flow_query_result`; a negative offset is found by the first `_require`. -/
def decodeCompactFlowQueryResult (data : Bytes) (offset : ℤ) : Decoding (Option Value) :=
  fun budget =>
  if offset < 0 then .ok none budget
  else match readResult data offset.toNat budget with
    | .ok r budget' => .ok (r.map CompactResult.value) budget'
    | .error .decodedCollectionLimit budget' => .error .decodedCollectionLimit budget'
    | .error _ budget' => .ok none budget'

/-! ### The generic decoder -/

inductive ResponseError where
  | message (text : String)
  | contract (context : String) (actual : Str)
  deriving DecidableEq, Repr

abbrev Response (α : Type) := Except ResponseError α

def decodeError {α : Type} (message : String) : Response α := .error (.message message)

structure FlowQueryPage where
  hasMore : Bool
  cursor : Option Str
  deriving DecidableEq

structure FlowQueryQuality where
  exactness : Str
  freshness : Str
  coverage : Str
  pagination : Str
  deriving DecidableEq

structure FlowQueryResult where
  version : String
  records : Option (List Value)
  page : Option FlowQueryPage
  count : Option ℕ
  quality : FlowQueryQuality
  usage : Usage
  raw : Value

def mapGet (mapping : Value) (field : String) : Value := RoutingTopology.mapGet mapping [field]

/-- `_has_key`. -/
def hasKey (mapping : Value) (field : String) : Bool :=
  match mapping with
  | .dict entries => (RoutingTopology.entry entries field).isSome
  | _ => false

/-- `_required_map_value`. -/
def requiredMapValue (value : Value) (context : String) : Response Value :=
  match value with
  | .dict entries => .ok (.dict entries)
  | _ => decodeError (context++" must be a map")

/-- `_text`. -/
def text : Value → Option Str
  | .str s => if encodable s then some s else none
  | .bytes b => decode b
  | _ => none

/-- `_required_text`. -/
def requiredText (mapping : Value) (field context : String) : Response Str :=
  match text (mapGet mapping field) with
  | some (c::s) => .ok (c::s)
  | _ => decodeError (context++" "++field++" must be non-empty text")

/-- `_require_contract`. -/
def requireContract (mapping : Value) (field expected context : String) : Response Unit := do
  let actual ← requiredText mapping field context
  if actual ≠ lit expected then .error (.contract context actual) else .ok ()

/-- `_required_bounded_text`. -/
def requiredBoundedText (mapping : Value) (field context : String) (maximumBytes : ℕ) :
    Response Str := do
  let s ← requiredText mapping field context
  if (utf8 s).length > maximumBytes then
    decodeError (context++" "++field++" exceeds "++toString maximumBytes++" bytes")
  else .ok s

/-- `_optional_text`. -/
def optionalText (mapping : Value) (field context : String) : Response (Option Str) :=
  match mapGet mapping field with
  | .none => .ok none
  | value =>
    match text value with
    | none => decodeError (context++" "++field++" must be text")
    | some s => .ok (some s)

/-- `_required_bool`. -/
def requiredBool (mapping : Value) (field context : String) : Response Bool :=
  match mapGet mapping field with
  | .bool b => .ok b
  | _ => decodeError (context++" "++field++" must be boolean")

/-- `_nonnegative_int`. -/
def nonnegativeInt (value : Value) (context : String) : Response ℕ :=
  match value with
  | .int n =>
    if n < 0 ∨ n > maxInteger then decodeError (context++" must be a non-negative signed integer")
    else .ok n.toNat
  | _ => decodeError (context++" must be a non-negative signed integer")

/-- `_decode_quality_value`. -/
def decodeQualityValue (mapping : Value) (field : String) (values : List String) :
    Response Str := do
  let value ← requiredBoundedText mapping field "FLOW.QUERY quality" 64
  if value ∉ values.map lit then
    decodeError ("FLOW.QUERY quality "++field++" is unsupported")
  else .ok value

/-- `_decode_quality`. -/
def decodeQuality (value : Value) : Response FlowQueryQuality := do
  let mapping ← requiredMapValue value "FLOW.QUERY quality"
  let exactness ← decodeQualityValue mapping "exactness" exactnessValues
  let freshness ← decodeQualityValue mapping "freshness" freshnessValues
  let coverage ← decodeQualityValue mapping "coverage" coverageValues
  let pagination ← decodeQualityValue mapping "pagination" paginationValues
  .ok ⟨exactness, freshness, coverage, pagination⟩

/-- `_decode_usage`. -/
def decodeUsage (value : Value) : Response Usage := do
  let mapping ← requiredMapValue value "FLOW.QUERY usage"
  let counters ← usageFields.mapM fun field =>
    nonnegativeInt (mapGet mapping field) ("FLOW.QUERY usage "++field)
  let usage := Usage.ofCounters counters
  if ¬ usage.valid then decodeError "FLOW.QUERY usage counters are inconsistent" else .ok usage

/-- `_decode_page`. -/
def decodePage (value : Value) : Response FlowQueryPage := do
  let mapping ← requiredMapValue value "FLOW.QUERY page"
  let hasMore ← requiredBool mapping "has_more" "FLOW.QUERY page"
  let cursor ← optionalText mapping "cursor" "FLOW.QUERY page"
  if cursor.any fun s => !cursorMark.isPrefixOf s ||
      !(minCursorBytes ≤ (utf8 s).length && (utf8 s).length ≤ maxCursorBytes) then
    decodeError "FLOW.QUERY page cursor is invalid"
  else if hasMore ≠ cursor.isSome then
    decodeError "FLOW.QUERY page has_more and cursor are inconsistent"
  else .ok ⟨hasMore, cursor⟩

def isDict : Value → Bool
  | .dict _ => true
  | _ => false

/-- The items of an array of maps. -/
def recordMaps : Value → Response (List Value)
  | .list items | .tuple items =>
    if items.length > maxRecords then
      decodeError "FLOW.QUERY records must be an array of at most 100 maps"
    else if ¬ items.all isDict then decodeError "FLOW.QUERY records contain a non-map item"
    else .ok items
  | _ => decodeError "FLOW.QUERY records must be an array of at most 100 maps"

/-- `decode_flow_query_result`. -/
def decodeFlowQueryResult (value : Value) : Response FlowQueryResult := do
  let mapping ← requiredMapValue value "FLOW.QUERY result"
  requireContract mapping "version" contract "FLOW.QUERY result"
  let quality ← decodeQuality (mapGet mapping "quality")
  let usage ← decodeUsage (mapGet mapping "usage")
  if hasKey mapping "records" = hasKey mapping "result" then
    decodeError "FLOW.QUERY result must contain exactly one records or count shape"
  else if hasKey mapping "records" then do
    let records ← recordMaps (mapGet mapping "records")
    if usage.resultRecords ≠ records.length then
      decodeError "FLOW.QUERY usage result_records does not match records"
    else if usage.resultRecords > usage.scannedEntries then
      decodeError "FLOW.QUERY usage counters are inconsistent"
    else do
      let page ← decodePage (mapGet mapping "page")
      .ok ⟨contract, some records, some page, none, quality, usage, mapping⟩
  else if hasKey mapping "page" then
    decodeError "FLOW.QUERY count result contains an unexpected page"
  else do
    let countResult ← requiredMapValue (mapGet mapping "result") "FLOW.QUERY count result"
    let kind ← requiredText countResult "kind" "FLOW.QUERY count result"
    if kind ≠ lit "count" then decodeError "FLOW.QUERY count result kind must be count"
    else do
      let count ← nonnegativeInt (mapGet countResult "value") "FLOW.QUERY count value"
      if usage.resultRecords ≠ 1 then
        decodeError "FLOW.QUERY count usage result_records must be 1"
      else .ok ⟨contract, none, none, some count, quality, usage, mapping⟩

end FerricStore.FlowQueryResults
