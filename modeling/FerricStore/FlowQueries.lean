import FerricStore.Dict
import FerricStore.TokenScanner
import FerricStore.Value

/-!
# The FQL query builder and its compiler

A query is built from field selectors, predicates and orders, with literal operands
and named parameters side by side. Compiling renders the text clause by clause; each
literal goes into the parameters under a generated name, and the tokens are counted
from the query and not from the text. The values of a query have passed the checks of
their constructors. A message is kept as its pieces, since how a text is shown is left
to the interpreter.
-/

set_option autoImplicit false

namespace FerricStore.FlowQueries
open FerricStore.Text FerricStore.Dict FerricStore.TokenScanner

def maxBytes : ℕ := 16*1024
def maxTokens : ℕ := 256
def maxParameters : ℕ := 64
def maxParameterNameBytes : ℕ := 128
def maxPredicates : ℕ := 12
def maxInValues : ℕ := 20
def maxOrderFields : ℕ := 2
def maxReturnFields : ℕ := 32
def maxResults : ℕ := 100
def maxPartitionBytes : ℕ := 65535
def maxParameterValueBytes : ℕ := maxPartitionBytes
def maxRunIdBytes : ℕ := maxPartitionBytes-52
def maxFieldValueBytes : ℕ := 1024
def maxMetadataNameBytes : ℕ := 64
def minCursorBytes : ℕ := 16
def maxCursorBytes : ℕ := 4096

/-- A piece of a message: text, a number, or a text as the interpreter shows it. -/
inductive Piece where
  | text (s : String)
  | number (n : ℕ)
  | name (s : Str)
  | shown (s : Str)
  deriving DecidableEq, Repr

inductive QueryError where
  | value (message : List Piece)
  | type (message : List Piece)
  | key (name : Str)
  | index
  | unicodeEncode
  deriving DecidableEq, Repr

def valueError {α : Type} (s : String) : Except QueryError α := .error (.value [.text s])

def typeError {α : Type} (s : String) : Except QueryError α := .error (.type [.text s])

def atMost {α : Type} (n : ℕ) (what : String) : Except QueryError α :=
  .error (.value [.text "FLOW.QUERY accepts at most ", .number n, .text what])

/-! ### Fields -/

/-- `normalize_flow_selector_segment` on a text. -/
def normalizeFlowSelectorSegment (value : Str) (context : String) (maximumBytes : ℕ)
    (rejectReserved : Bool) : Except QueryError Str :=
  let size : Except QueryError Str := .error (.value
    [.text "Flow query ", .text context, .text " must be 1..", .number maximumBytes,
      .text " bytes"])
  if maximumBytes < value.length then size
  else match encode value with
    | none => .error (.value [.text "Flow query ", .text context, .text " must be valid UTF-8"])
    | some encoded =>
      if encoded.length < 1 ∨ maximumBytes < encoded.length then size
      else if rejectReserved && (lit "__").isPrefixOf value then
        .error (.value [.text "Flow query ", .text context, .text " is reserved"])
      else .ok value

/-- `quote_flow_selector_segment` and `flow_metadata_selector`. -/
def flowMetadataSelector (root : String) (segments : List Str) : Str :=
  lit root++segments.flatMap fun s => lit "["++quote s++lit "]"

inductive Builtin where
  | partitionKey
  | runId
  | eventId
  | type
  | state
  | version
  | priority
  | createdAtMs
  | updatedAtMs
  | nextRunAtMs
  | leaseDeadlineMs
  | attempts
  | runState
  | maxActiveMs
  | parentFlowId
  | rootFlowId
  | correlationId
  deriving DecidableEq, Repr

def Builtin.name : Builtin → String
  | .partitionKey => "partition_key"
  | .runId => "run_id"
  | .eventId => "event_id"
  | .type => "type"
  | .state => "state"
  | .version => "version"
  | .priority => "priority"
  | .createdAtMs => "created_at_ms"
  | .updatedAtMs => "updated_at_ms"
  | .nextRunAtMs => "next_run_at_ms"
  | .leaseDeadlineMs => "lease_deadline_ms"
  | .attempts => "attempts"
  | .runState => "run_state"
  | .maxActiveMs => "max_active_ms"
  | .parentFlowId => "parent_flow_id"
  | .rootFlowId => "root_flow_id"
  | .correlationId => "correlation_id"

def builtins : List Builtin :=
  [.partitionKey, .runId, .eventId, .type, .state, .version, .priority, .createdAtMs,
    .updatedAtMs, .nextRunAtMs, .leaseDeadlineMs, .attempts, .runState, .maxActiveMs,
    .parentFlowId, .rootFlowId, .correlationId]

inductive ValueKind where
  | integer
  | keyword
  | dynamic
  deriving DecidableEq, Repr

def Builtin.valueKind : Builtin → ValueKind
  | .version | .priority | .createdAtMs | .updatedAtMs | .nextRunAtMs | .leaseDeadlineMs
  | .attempts | .maxActiveMs => .integer
  | _ => .keyword

/-- `FlowField`: `_state` and `_metadata_name` are set exactly on the metadata fields. -/
inductive FlowField where
  | builtin (b : Builtin)
  | attribute (name : Str)
  | stateMeta (state name : Str)
  deriving DecidableEq, Repr

namespace FlowField

/-- `FlowField.__post_init__` on the name and segments given. -/
def make (name : Str) (state metadataName : Option Str) : Except QueryError FlowField :=
  let normalized := name.map lowerAscii
  if !isAscii name then
    .error (.value [.text "unsupported Flow query field ", .shown name])
  else match state, metadataName with
    | none, none =>
      match builtins.find? fun b => normalized = lit b.name with
      | some b => .ok (.builtin b)
      | none => .error (.value [.text "unsupported Flow query field ", .shown name])
    | none, some n =>
      if normalized = lit "attribute" then do
        let _ ← normalizeFlowSelectorSegment n "attribute" maxMetadataNameBytes true
        .ok (.attribute n)
      else valueError "invalid Flow query metadata field"
    | some s, n =>
      if normalized = lit "state_meta" then do
        let _ ← normalizeFlowSelectorSegment s "state_meta state" maxMetadataNameBytes false
        match n with
        | none => typeError "Flow query state_meta key must be text"
        | some n => do
          let _ ← normalizeFlowSelectorSegment n "state_meta key" maxMetadataNameBytes true
          .ok (.stateMeta s n)
      else valueError "invalid Flow query metadata field"

def name : FlowField → String
  | .builtin b => b.name
  | .attribute _ => "attribute"
  | .stateMeta _ _ => "state_meta"

def segments : FlowField → List Str
  | .builtin _ => []
  | .attribute n => [n]
  | .stateMeta s n => [s, n]

def selector (f : FlowField) : Str := flowMetadataSelector f.name f.segments

def valueKind : FlowField → ValueKind
  | .builtin b => b.valueKind
  | _ => .dynamic

def orderable : FlowField → Bool
  | .builtin b => b.valueKind = .integer || b = .eventId
  | _ => false

/-- The field came from its constructor. -/
def Made (f : FlowField) : Prop := ∃ name state metadataName, make name state metadataName = .ok f

end FlowField

inductive RunMap where
  | attributes
  | stateMeta
  deriving DecidableEq, Repr

def RunMap.name : RunMap → String
  | .attributes => "attributes"
  | .stateMeta => "state_meta"

/-- A projected field: `FlowField`, `FlowEventField` or `FlowRunMapField`. -/
inductive Projected where
  | field (f : FlowField)
  | event (metadataName : Option Str)
  | runMap (m : RunMap)
  deriving DecidableEq, Repr

namespace Projected

def name : Projected → String
  | .field f => f.name
  | .event _ => "fields"
  | .runMap m => m.name

def segments : Projected → List Str
  | .field f => f.segments
  | .event n => n.toList
  | .runMap _ => []

def selector (p : Projected) : Str := flowMetadataSelector p.name p.segments

def Made : Projected → Prop
  | .field f => f.Made
  | .event (some n) =>
    normalizeFlowSelectorSegment n "event field" maxMetadataNameBytes true = .ok n
  | _ => True

end Projected

/-! ### Operands -/

def validateFlowQueryParameterName (name : Str) : Except QueryError Unit :=
  let size : Except QueryError Unit := .error (.value
    [.text "FLOW.QUERY parameter names must be 1..", .number maxParameterNameBytes,
      .text " bytes"])
  if maxParameterNameBytes < name.length then size
  else match encode name with
    | none => valueError "FLOW.QUERY parameter names must be valid UTF-8"
    | some encoded =>
      if encoded.length = 0 ∨ maxParameterNameBytes < encoded.length then size
      else if name ≠ [] ∧ name.all inName = true then .ok ()
      else valueError
        "FLOW.QUERY parameter names may contain only ASCII letters, digits, '_', '-', or '.'"

def generatedParameterPrefix : Str := lit "_fql_"

/-- `FlowQueryParameter.__post_init__`. -/
def flowParam (name : Str) : Except QueryError Unit := do
  validateFlowQueryParameterName name
  if generatedParameterPrefix.isPrefixOf name then
    .error (.value [.text "Flow query parameter names beginning with ",
      .shown generatedParameterPrefix, .text " are reserved"])
  else .ok ()

structure FlowQueryParameter where
  name : Str
  made : flowParam name = .ok ()
  deriving DecidableEq

def normalizeFlowQueryParameter (name : Str) : Value → Except QueryError Value
  | .str s =>
    if maxParameterValueBytes < s.length then exceeds
    else match encode s with
      | none => .error (.value [.text "FLOW.QUERY parameter ", .shown name,
          .text " must be valid UTF-8"])
      | some encoded =>
        if maxParameterValueBytes < encoded.length then exceeds else .ok (.str s)
  | .bytes b => if maxParameterValueBytes < b.length then exceeds else .ok (.bytes b)
  | .bool b => .ok (.bool b)
  | .int n => if -(2:ℤ)^63 ≤ n ∧ n ≤ (2:ℤ)^63-1 then .ok (.int n) else unsupported
  | .float bits => if isFinite bits then .ok (.float bits) else unsupported
  | _ => unsupported
where
  exceeds : Except QueryError Value := .error (.value [.text "FLOW.QUERY parameter ", .shown name,
    .text " exceeds ", .number maxParameterValueBytes, .text " bytes"])
  unsupported : Except QueryError Value := .error (.type [.text "FLOW.QUERY parameter ",
    .shown name, .text (" must be text, bytes, boolean, a finite float, "++
      "or a signed 64-bit integer")])

/-- A normalised value, as `_FlowBoundValue` and the bindings hold it. -/
structure FlowBoundValue where
  value : Value
  normal : normalizeFlowQueryParameter (lit "generated") value = .ok value
  deriving DecidableEq

theorem normalize_normal {name : Str} {v w : Value} (h : normalizeFlowQueryParameter name v = .ok w) :
    normalizeFlowQueryParameter (lit "generated") w = .ok w := by
  unfold normalizeFlowQueryParameter at h
  split at h
  case h_1 s =>
    split at h
    · cases h
    · split at h
      · cases h
      · split at h
        · cases h
        · rename_i hlen _ encoded hencode hbytes
          cases h
          simp [normalizeFlowQueryParameter, hlen, hencode, hbytes]
  case h_2 b =>
    split at h
    · cases h
    · rename_i hlen
      cases h
      simp [normalizeFlowQueryParameter, hlen]
  case h_3 b =>
    cases h
    rfl
  case h_4 n =>
    split at h
    · rename_i hrange
      cases h
      rw [normalizeFlowQueryParameter, if_pos hrange]
    · cases h
  case h_5 bits =>
    split at h
    · rename_i hfinite
      cases h
      rw [normalizeFlowQueryParameter, if_pos hfinite]
    · cases h
  case h_6 => cases h

/-- `normalize_flow_query_params` on one entry after another. -/
def normalizeEntries : List (Str × Value) → Except QueryError (Dict Str FlowBoundValue)
  | [] => .ok []
  | (name, v)::rest => do
    validateFlowQueryParameterName name
    match h : normalizeFlowQueryParameter name v with
    | .error e => .error e
    | .ok w => do
      let entries ← normalizeEntries rest
      .ok ((name, ⟨w, normalize_normal h⟩)::entries)

def normalizeFlowQueryParams (params : Dict Str Value) :
    Except QueryError (Dict Str FlowBoundValue) :=
  if maxParameters < params.length then atMost maxParameters " parameters"
  else normalizeEntries params

inductive FlowOperand where
  | parameter (p : FlowQueryParameter)
  | bound (v : FlowBoundValue)
  deriving DecidableEq

/-! ### Queries -/

inductive Operator where
  | eq
  | isIn
  | between
  | fromTo
  | null
  | missing
  deriving DecidableEq, Repr

structure Predicate (α : Type) where
  field : FlowField
  operator : Operator
  operands : List α
  deriving DecidableEq

/-- `_PREDICATE_ARITIES`. -/
def Operator.arity : Operator → Option ℕ
  | .eq => some 1
  | .isIn => none
  | .between => some 2
  | .fromTo => some 2
  | .null => some 0
  | .missing => some 0

def Operator.name : Operator → String
  | .eq => "eq"
  | .isIn => "in"
  | .between => "between"
  | .fromTo => "from_to"
  | .null => "null"
  | .missing => "missing"

/-- `FlowPredicate.__post_init__`. -/
def Predicate.postInit {α : Type} (p : Predicate α) : Except QueryError Unit :=
  if p.operator.arity.any (p.operands.length ≠ ·) then
    .error (.value [.text "Flow query predicate ", .shown (lit p.operator.name),
      .text " has an invalid arity"])
  else if p.operator = .isIn ∧ ¬ (1 ≤ p.operands.length ∧ p.operands.length ≤ maxInValues) then
    .error (.value [.text "Flow query IN requires 1..", .number maxInValues, .text " values"])
  else .ok ()

inductive Direction where
  | asc
  | desc
  deriving DecidableEq, Repr

def Direction.name : Direction → String
  | .asc => "ASC"
  | .desc => "DESC"

structure FlowOrder where
  field : FlowField
  direction : Direction
  deriving DecidableEq

/-- `FlowOrder.__post_init__`. -/
def FlowOrder.postInit (o : FlowOrder) : Except QueryError Unit :=
  if o.field.orderable then .ok ()
  else .error (.value [.text "Flow query field ", .shown o.field.selector,
    .text " cannot be ordered"])

inductive Source where
  | runs
  | events
  deriving DecidableEq, Repr

def Source.name : Source → String
  | .runs => "runs"
  | .events => "events"

inductive ReturnShape where
  | record
  | records
  | count
  deriving DecidableEq, Repr

/-- The return shape in upper case, as the text writes it. -/
def ReturnShape.name : ReturnShape → String
  | .record => "RECORD"
  | .records => "RECORDS"
  | .count => "COUNT"

/-- A query over its operands: the builder's own, placeholders, or plain values. -/
structure Query (α : Type) where
  source : Source
  predicates : List (Predicate α)
  orders : List FlowOrder
  limit : Option ℕ
  cursor : Option α
  returnShape : Option ReturnShape
  projection : List Projected
  deriving DecidableEq

def projectable (source : Source) : Projected → Except QueryError Unit
  | .event _ => match source with
    | .runs => valueError "runs projection does not support an event field"
    | .events => .ok ()
  | .runMap m => match source with
    | .runs => .ok ()
    | .events => .error (.value [.text "events projection does not support ", .text m.name])
  | .field f => match source with
    | .runs =>
      if f = .builtin .eventId then valueError "runs projection does not support event_id"
      else .ok ()
    | .events =>
      if f = .builtin .eventId then .ok ()
      else .error (.value [.text "events projection does not support ", .text f.name])

/-- `_validate_projection`. -/
def validateProjection (source : Source) (projection : List Projected) :
    Except QueryError Unit := do
  if maxReturnFields < projection.length then atMost maxReturnFields " projection fields"
  projection.forM (projectable source)
  if (projection.map Projected.selector).Nodup then .ok ()
  else valueError "Flow query return projection contains a duplicate projection field"

/-- `FlowQuery.__post_init__`. -/
def Query.postInit {α : Type} (q : Query α) : Except QueryError Unit := do
  if maxPredicates < q.predicates.length then atMost maxPredicates " predicates"
  if maxOrderFields < q.orders.length then atMost maxOrderFields " order fields"
  if ¬ (q.orders.map fun o => o.field.selector).Nodup then
    valueError "FLOW.QUERY does not allow a duplicate order field"
  if q.limit.any fun n => ¬ (1 ≤ n ∧ n ≤ maxResults) then
    .error (.value [.text "FLOW.QUERY limit must be between 1 and ", .number maxResults])
  validateProjection q.source q.projection
  if q.returnShape = some .count ∧ q.projection ≠ [] then
    valueError "RETURN COUNT does not accept projection fields"

structure FlowQuery where
  query : Query FlowOperand
  bindings : List (Str × FlowBoundValue)
  fields : ∀ p ∈ query.predicates, p.field.Made
  predicates : ∀ p ∈ query.predicates, p.postInit = .ok ()
  orders : ∀ o ∈ query.orders, o.field.Made ∧ o.postInit = .ok ()
  projection : ∀ p ∈ query.projection, p.Made
  made : query.postInit = .ok ()

/-! ### Checks of the compiler -/

/-- `len(value)` and the bytes of a text or a byte string. -/
def binary : Value → Option (ℕ × Except QueryError Bytes)
  | .str s => some (s.length, (encode s).elim (.error .unicodeEncode) .ok)
  | .bytes b => some (b.length, .ok b)
  | _ => none

def incompatible (f : FlowField) (kind : String) (parameter : Str) : Except QueryError Unit :=
  .error (.type [.text "Flow query parameter ", .shown parameter,
    .text (" is incompatible with "++kind++" field "), .shown f.selector])

def keywordBytes (f : FlowField) : ℕ :=
  if f = .builtin .partitionKey then maxPartitionBytes
  else if f = .builtin .runId then maxRunIdBytes
  else maxFieldValueBytes

/-- `_validate_field_value`. -/
def validateFieldValue (f : FlowField) (v : Value) (parameter : Str) : Except QueryError Unit :=
  match f.valueKind with
  | .integer => match v with
    | .int _ => .ok ()
    | _ => incompatible f "integer" parameter
  | .keyword => match binary v with
    | none => incompatible f "keyword" parameter
    | some (len, encoded) => do
      let size : Except QueryError Unit := .error (.value [.text "Flow query value for ",
        .shown f.selector, .text " must be 1..", .number (keywordBytes f), .text " bytes"])
      if keywordBytes f < len then size
      let bytes ← encoded
      if bytes = [] ∨ keywordBytes f < bytes.length then size
  | .dynamic => match binary v with
    | none => .ok ()
    | some (len, encoded) => do
      let size : Except QueryError Unit := .error (.value [.text "Flow query value for ",
        .shown f.selector, .text " must not exceed ", .number maxFieldValueBytes, .text " bytes"])
      if maxFieldValueBytes < len then size
      let bytes ← encoded
      if maxFieldValueBytes < bytes.length then size

/-- The order of the finite floats, both zeros alike. -/
def floatRank (bits : BitVec 64) : ℤ :=
  if bits.msb then -(bits.toNat % 2^63 : ℕ) else (bits.toNat % 2^63 : ℕ)

inductive Comparable where
  | binary (b : Bytes)
  | boolean (b : Bool)
  | integer (n : ℤ)
  | float (rank : ℤ)
  deriving DecidableEq, Repr

/-- `_comparable`. -/
def comparable : Value → Except QueryError Comparable
  | .str s => (encode s).elim (.error .unicodeEncode) fun b => .ok (.binary b)
  | .bytes b => .ok (.binary b)
  | .bool b => .ok (.boolean b)
  | .int n => .ok (.integer n)
  | .float bits => .ok (.float (floatRank bits))
  | _ => typeError "Flow query value is not comparable"

/-- `_validate_distinct_in`. -/
def validateDistinctIn (values : List Value) : Except QueryError Unit := do
  let normalized ← values.mapM comparable
  if normalized.Nodup then .ok ()
  else valueError "Flow query IN does not allow a duplicate IN value"

/-- `_validate_range`. -/
def validateRange (lower upper : Value) : Except QueryError Unit := do
  let exceeds : Except QueryError Unit :=
    valueError "Flow query lower bound must not exceed its upper bound"
  match ← comparable lower, ← comparable upper with
  | .binary a, .binary b => if b < a then exceeds else .ok ()
  | .boolean a, .boolean b => if b < a then exceeds else .ok ()
  | .integer a, .integer b => if b < a then exceeds else .ok ()
  | .float a, .float b => if b < a then exceeds else .ok ()
  | _, _ => typeError "Flow query range bounds have incompatible value types"

/-- `_validate_cursor`. -/
def validateCursor (v : Value) : Except QueryError Unit :=
  match binary v with
  | none => typeError "Flow query cursor must be text or bytes"
  | some (len, encoded) => do
    let size : Except QueryError Unit := .error (.value [.text "Flow query cursor must be ",
      .number minCursorBytes, .text "..", .number maxCursorBytes, .text " bytes"])
    if maxCursorBytes < len then size
    let bytes ← encoded
    if ¬ (minCursorBytes ≤ bytes.length ∧ bytes.length ≤ maxCursorBytes) then size
    if ¬ (utf8 (lit "fqc1_")).isPrefixOf bytes then
      valueError "Flow query cursor must begin with 'fqc1_'"

/-- The whitespace `str.strip` removes. -/
def isSpace (c : CodePoint) : Bool :=
  (9 ≤ c.val && c.val ≤ 13) || (28 ≤ c.val && c.val ≤ 32) || c.val == 0x85 || c.val == 0xA0 ||
    c.val == 0x1680 || (0x2000 ≤ c.val && c.val ≤ 0x200A) || c.val == 0x2028 ||
    c.val == 0x2029 || c.val == 0x202F || c.val == 0x205F || c.val == 0x3000

def validateFlowQueryText (query : Str) : Except QueryError Unit := do
  let exceeds : Except QueryError Unit := .error (.value [.text "FLOW.QUERY query exceeds ",
    .number maxBytes, .text " bytes"])
  if maxBytes < query.length then exceeds
  if query.all isSpace then valueError "FLOW.QUERY query must not be empty"
  match encode query with
  | none => valueError "FLOW.QUERY query must be valid UTF-8"
  | some bytes => if maxBytes < bytes.length then exceeds

/-! ### The compiler -/

structure Compiler where
  params : Dict Str FlowBoundValue
  generated : ℕ

def generatedName (k : ℕ) : Str := generatedParameterPrefix++lit (toString k)

def cursorName : Str := lit "_fql_cursor"

def placeholder (name : Str) : Str := lit "@"++name

namespace Compiler

/-- `_FlowQueryCompiler._value`. -/
def value (c : Compiler) (f : FlowField) :
    FlowOperand → Except QueryError ((Str × FlowBoundValue) × Compiler)
  | .parameter p =>
    match get? c.params p.name with
    | none => .error (.key p.name)
    | some v => do
      validateFieldValue f v.value p.name
      .ok ((placeholder p.name, v), c)
  | .bound v => do
    let name := generatedName c.generated
    validateFieldValue f v.value name
    .ok ((placeholder name, v), ⟨set c.params name v, c.generated+1⟩)

def values (c : Compiler) (f : FlowField) :
    List FlowOperand → Except QueryError (List (Str × FlowBoundValue) × Compiler)
  | [] => .ok ([], c)
  | operand::rest => do
    let (v, c) ← c.value f operand
    let (vs, c) ← c.values f rest
    .ok (v::vs, c)

/-- `_FlowQueryCompiler.predicate`. -/
def predicate (c : Compiler) (p : Predicate FlowOperand) : Except QueryError (Str × Compiler) :=
  let selector := p.field.selector
  match p.operator with
  | .null => .ok (selector++lit " IS NULL", c)
  | .missing => .ok (selector++lit " IS MISSING", c)
  | operator => do
    let (values, c) ← c.values p.field p.operands
    match operator, values with
    | .eq, v::_ => .ok (selector++lit " = "++v.1, c)
    | .isIn, vs => do
      validateDistinctIn (vs.map fun v => v.2.value)
      .ok (selector++lit " IN ("++(lit ", ").intercalate (vs.map Prod.fst)++lit ")", c)
    | .between, lower::upper::_ => do
      validateRange lower.2.value upper.2.value
      .ok (selector++lit " BETWEEN "++lower.1++lit " AND "++upper.1, c)
    | _, lower::upper::_ => do
      validateRange lower.2.value upper.2.value
      .ok (selector++lit " FROM "++lower.1++lit " TO "++upper.1, c)
    | _, _ => .error .index

def predicates (c : Compiler) :
    List (Predicate FlowOperand) → Except QueryError (List Str × Compiler)
  | [] => .ok ([], c)
  | p::rest => do
    let (text, c) ← c.predicate p
    let (texts, c) ← c.predicates rest
    .ok (text::texts, c)

/-- `_FlowQueryCompiler.cursor`. -/
def cursor (c : Compiler) : FlowOperand → Except QueryError (Str × Compiler)
  | .parameter p =>
    match get? c.params p.name with
    | none => .error (.key p.name)
    | some v => do
      validateCursor v.value
      .ok (placeholder p.name, c)
  | .bound v => do
    validateCursor v.value
    .ok (placeholder cursorName, ⟨set c.params cursorName v, c.generated⟩)

end Compiler

def fieldTokenCount : FlowField → ℕ
  | .attribute _ => 4
  | .stateMeta _ _ => 7
  | .builtin _ => 1

def predicateTokenCount {α : Type} (p : Predicate α) : ℕ :=
  match p.operator with
  | .isIn => fieldTokenCount p.field+2*p.operands.length+2
  | .between | .fromTo => fieldTokenCount p.field+4
  | _ => fieldTokenCount p.field+2

def projectionFieldTokenCount : Projected → ℕ
  | .runMap _ => 1
  | .event n => if (Projected.event n).selector = lit "fields" then 1 else 4
  | .field f => fieldTokenCount f

/-- The number `_validate_generated_token_count` compares with the limit. -/
def generatedTokenCount {α : Type} (q : Query α) : ℕ :=
  3+(q.predicates.length-1)+(q.predicates.map predicateTokenCount).sum+
    (if q.orders = [] then 0
      else 2+(q.orders.length-1)+(q.orders.map fun o => fieldTokenCount o.field+1).sum)+
    (if q.limit.isSome then 2 else 0)+(if q.cursor.isSome then 2 else 0)+2+
    (if q.projection = [] then 0
      else 2+(q.projection.length-1)+(q.projection.map projectionFieldTokenCount).sum)

def validateGeneratedTokenCount {α : Type} (q : Query α) : Except QueryError Unit :=
  if maxTokens < generatedTokenCount q then atMost maxTokens " lexical tokens" else .ok ()

def FlowOperand.isBound : FlowOperand → Bool
  | .bound _ => true
  | .parameter _ => false

def validateGeneratedParameterCount (q : Query FlowOperand)
    (bindings : Dict Str FlowBoundValue) : Except QueryError Unit :=
  let literals := ((q.predicates.flatMap Predicate.operands)++q.cursor.toList).countP
    FlowOperand.isBound
  if maxParameters < bindings.length+literals then atMost maxParameters " parameters" else .ok ()

def renderOrders (orders : List FlowOrder) : Str :=
  if orders = [] then []
  else lit " ORDER BY "++(lit ", ").intercalate
    (orders.map fun o => o.field.selector++lit " "++lit o.direction.name)

def renderProjection (projection : List Projected) : Str :=
  if projection = [] then []
  else lit " ("++(lit ", ").intercalate (projection.map Projected.selector)++lit ")"

def renderLimit : Option ℕ → Str
  | none => []
  | some n => lit " LIMIT "++lit (toString n)

def Compiler.cursorClause (c : Compiler) : Option FlowOperand → Except QueryError (Str × Compiler)
  | none => .ok ([], c)
  | some operand => do
    let (text, c) ← c.cursor operand
    .ok (lit " CURSOR "++text, c)

/-- `compile_flow_query`. -/
def compileFlowQuery (q : Query FlowOperand) (shape : ReturnShape)
    (bindings : Dict Str FlowBoundValue) :
    Except QueryError (Str × Dict Str FlowBoundValue) := do
  validateGeneratedParameterCount q bindings
  let (texts, c) ← Compiler.predicates ⟨bindings, 0⟩ q.predicates
  let opening := lit "FROM "++lit q.source.name++lit " WHERE "++(lit " AND ").intercalate texts
  let (cursor, c) ← c.cursorClause q.cursor
  let text := opening++renderOrders q.orders++renderLimit q.limit++cursor++lit " RETURN "++
    lit shape.name++renderProjection q.projection
  validateGeneratedTokenCount q
  validateFlowQueryText text
  .ok (text, c.params)

/-! ### Shapes, bindings and `compile` -/

def shapeError (detail : String) : Except QueryError Unit :=
  .error (.value [.text "invalid Flow query shape: ", .text detail])

/-- `_equality_fields`. -/
def equalityFields {α : Type} (predicates : List (Predicate α)) : List String :=
  if predicates.any fun p => p.operator ≠ .eq then [] else predicates.map fun p => p.field.name

/-- `_require_partition_scope`. -/
def requirePartitionScope {α : Type} (predicates : List (Predicate α)) : Except QueryError Unit :=
  match predicates.filter fun p => p.field = .builtin .partitionKey with
  | [p] => if p.operator = .eq then .ok () else refusal
  | _ => refusal
where
  refusal := shapeError "run collections and counts require one partition_key equality"

def pointFields : List (List String) :=
  [["run_id"], ["partition_key", "run_id"], ["run_id", "partition_key"]]

section Shapes

variable {α : Type}

def unpaginated (q : Query α) : Bool :=
  q.source = .runs && q.orders.isEmpty && q.limit.isNone && q.cursor.isNone

def validatePointShape (q : Query α) : Except QueryError Unit := do
  if !unpaginated q then
    shapeError "RETURN RECORD is only valid for an unpaginated run point read"
  if equalityFields q.predicates ∉ pointFields then
    shapeError "a point read requires run_id and optional partition_key equality"

def validateCountShape (q : Query α) : Except QueryError Unit := do
  if !unpaginated q then
    shapeError "RETURN COUNT supports run predicates without ordering or pagination"
  requirePartitionScope q.predicates

def validateCollectionShape (q : Query α) : Except QueryError Unit := do
  if q.orders = [] ∨ q.limit = none then shapeError "RETURN RECORDS requires ORDER BY and LIMIT"
  if q.source = .events then
    if equalityFields q.predicates ∉ pointFields then
      shapeError "event history requires run_id and optional partition_key equality"
    if q.orders.map FlowOrder.field ≠ [.builtin .eventId] then
      shapeError "event history must order by event_id"
  else
    let fields := equalityFields q.predicates
    if fields = ["partition_key", "run_id"] ∨ fields = ["run_id", "partition_key"] then
      shapeError "partition_key/run_id point queries must use RETURN RECORD"
    requirePartitionScope q.predicates
    if q.orders.any fun o => o.field.valueKind ≠ .integer then
      shapeError "run collections may order only by integer fields"

/-- `FlowQuery._validate_shape`, with the return shape it ensures. -/
def validateShape (q : Query α) : Except QueryError Unit := do
  if q.predicates = [] ∨ q.returnShape = none then
    shapeError "WHERE predicates and a return shape are required"
  if maxPredicates < q.predicates.length then
    .error (.value [.text "invalid Flow query shape: at most ", .number maxPredicates,
      .text " predicates are supported"])
  match q.returnShape with
  | some .record => validatePointShape q
  | some .count => validateCountShape q
  | _ => validateCollectionShape q

end Shapes

def FlowOperand.parameterName : FlowOperand → Option Str
  | .parameter p => some p.name
  | .bound _ => none

/-- `FlowQuery._parameter_names`, in the order of the query. -/
def parameterNames (q : Query FlowOperand) : List Str :=
  ((q.predicates.flatMap Predicate.operands)++q.cursor.toList).filterMap FlowOperand.parameterName

/-- The names of a set, sorted as `sorted` does and joined. -/
def nameList (names : List Str) : Piece :=
  .name ((lit ", ").intercalate (names.dedup.mergeSort fun a b => a ≤ b))

namespace FlowQuery

/-- `FlowQuery.bind`: the names of the mapping and the keyword arguments together. -/
def bind (q : FlowQuery) (params values : Dict Str Value) : Except QueryError FlowQuery := do
  let supplied ← normalizeFlowQueryParams params
  let duplicates := (keys supplied).filter fun n => n ∈ keys values
  if duplicates ≠ [] then
    .error (.value [.text "Flow query binding provided more than once: ", nameList duplicates])
  let normalizedValues ← normalizeFlowQueryParams values
  if maxParameters < supplied.length+normalizedValues.length then
    atMost maxParameters " parameters"
  let normalized := update supplied normalizedValues
  let unknown := (keys normalized).filter fun n => n ∉ parameterNames q.query
  if unknown ≠ [] then .error (.value [.text "unknown Flow query binding: ", nameList unknown])
  let current := update [] q.bindings
  let rebound := (keys normalized).filter fun n => n ∈ keys current
  if rebound ≠ [] then
    .error (.value [.text "Flow query parameter is already bound: ", nameList rebound])
  .ok { q with bindings := (update current normalized).mergeSort fun a b => a.1 ≤ b.1 }

/-- `FlowQuery.compile`. -/
def compile (q : FlowQuery) : Except QueryError (Str × Dict Str FlowBoundValue) := do
  validateShape q.query
  let required := parameterNames q.query
  let bound := update [] q.bindings
  let missing := required.filter fun n => n ∉ keys bound
  if missing ≠ [] then .error (.value [.text "missing Flow query binding: ", nameList missing])
  let unknown := (keys bound).filter fun n => n ∉ required
  if unknown ≠ [] then .error (.value [.text "unknown Flow query binding: ", nameList unknown])
  match q.query.returnShape with
  | none => .error (.value [.text "invalid Flow query shape: a return shape is required"])
  | some shape => compileFlowQuery q.query shape bound

end FlowQuery

end FerricStore.FlowQueries
