import FerricStore.FlowCodec
import FerricStore.Reader

/-!
# What a compact Flow request says

The content of a request is what the server is to learn from it: text as bytes,
an optional field as present or absent, integers, the items in order, the return
mode, and `independent` as absent, false or true. Each content has one wire form
and one reader; the reader takes the content back off the front of its wire form.
-/

set_option autoImplicit false

namespace FerricStore.FlowCodec
open Text CompactBudget ValueCodec Reader

def binaryWire (b : Bytes) : Bytes := u32 b.length++b

def optionalWire : Option Bytes → Bytes
  | none => u32 nullU32
  | some b => binaryWire b

def optionalBinary : Reader (Option Bytes) := do
  let size ← nat 4
  if size = nullU32 then pure none
  else do
    let b ← take size
    pure (some b)

def triMarker : Option Bool → UInt8
  | none => 0
  | some false => 1
  | some true => 2

/-- The `independent` field: in a terminal local request only whether it is `True`. -/
inductive Independence where
  | plain (value : Option Bool)
  | terminal (isTrue : Bool)
  deriving DecidableEq, Repr

def Independence.marker : Independence → UInt8
  | .plain value => triMarker value
  | .terminal true => 3
  | .terminal false => 4

def independenceOf : UInt8 → Option Independence
  | 0 => some (.plain none)
  | 1 => some (.plain (some false))
  | 2 => some (.plain (some true))
  | 3 => some (.terminal true)
  | 4 => some (.terminal false)
  | _ => none

inductive ClaimReturn where
  | absent
  | jobsCompact
  | jobsCompactState
  | jobsCompactAttrs
  | jobsCompactStateAttrs
  deriving DecidableEq, Repr

def ClaimReturn.marker : ClaimReturn → UInt8
  | .absent => 0
  | .jobsCompact => 1
  | .jobsCompactState => 2
  | .jobsCompactAttrs => 3
  | .jobsCompactStateAttrs => 4

def claimReturnOf : UInt8 → Option ClaimReturn
  | 0 => some .absent
  | 1 => some .jobsCompact
  | 2 => some .jobsCompactState
  | 3 => some .jobsCompactAttrs
  | 4 => some .jobsCompactStateAttrs
  | _ => none

inductive ClaimPartitions where
  | unspecified
  | one (key : Bytes)
  | many (keys : List Bytes)
  deriving DecidableEq, Repr

structure CreateManyItem where
  id : Bytes
  partition : Option Bytes
  payload : Bytes
  deriving DecidableEq, Repr

structure CreateMany where
  type : Bytes
  state : Bytes
  partition : Option Bytes
  nowMs : ℤ
  runAtMs : ℤ
  independent : Option Bool
  okOnSuccess : Bool
  items : List CreateManyItem
  deriving DecidableEq, Repr

structure ClaimDue where
  type : Bytes
  state : Option Bytes
  worker : Bytes
  leaseMs : ℤ
  limit : ℤ
  blockMs : ℤ
  reclaimExpired : Bool
  reclaimRatio : ℤ
  priority : ℤ
  returnMode : ClaimReturn
  partitions : ClaimPartitions
  deriving DecidableEq, Repr

structure ClaimedItem where
  id : Bytes
  partition : Option Bytes
  lease : Bytes
  fencing : ℤ
  deriving DecidableEq, Repr

structure ClaimedMany where
  okOnSuccess : Bool
  partition : Option Bytes
  nowMs : ℤ
  runAtMs : Option ℤ
  independent : Independence
  items : List ClaimedItem
  deriving DecidableEq, Repr

structure CancelItem where
  id : Bytes
  partition : Option Bytes
  fencing : ℤ
  deriving DecidableEq, Repr

structure CancelMany where
  okOnSuccess : Bool
  partition : Option Bytes
  nowMs : ℤ
  independent : Option Bool
  items : List CancelItem
  deriving DecidableEq, Repr

structure TransitionItem where
  id : Bytes
  partition : Option Bytes
  fencing : ℤ
  lease : Option Bytes
  deriving DecidableEq, Repr

structure TransitionMany where
  okOnSuccess : Bool
  fromState : Bytes
  toState : Bytes
  partition : Option Bytes
  nowMs : ℤ
  runAtMs : ℤ
  independent : Option Bool
  items : List TransitionItem
  deriving DecidableEq, Repr

structure ValueMget where
  maxBytes : ℤ
  refs : List Bytes
  deriving DecidableEq, Repr

structure ValueOwner where
  flowId : Bytes
  name : Bytes
  partition : Option Bytes
  deriving DecidableEq, Repr

structure ValuePutItem where
  value : Bytes
  owner : Option ValueOwner
  nowMs : ℤ
  deriving DecidableEq, Repr

abbrev ValuePut := List ValuePutItem

def CreateManyItem.wire (x : CreateManyItem) : Bytes :=
  binaryWire x.id++((x.partition.elim [] binaryWire)++binaryWire x.payload)

/-- Items that all carry a partition need no batch partition. -/
def CreateMany.mixed (c : CreateMany) : Bool :=
  c.partition.isNone && c.items.all fun x => x.partition.isSome

def CreateMany.wire (c : CreateMany) : Bytes :=
  createManyKind c.mixed c.partition::(binaryWire c.type++(binaryWire c.state++
    ((c.partition.elim [] binaryWire)++(i64 c.nowMs++(i64 c.runAtMs++(triMarker c.independent::(if c.okOnSuccess then 1 else 0)::
      (u32 c.items.length++c.items.flatMap CreateManyItem.wire)))))))

def ClaimPartitions.mode : ClaimPartitions → UInt8
  | .unspecified => 0
  | .one _ => 1
  | .many _ => 2

def ClaimPartitions.wire : ClaimPartitions → Bytes
  | .unspecified => []
  | .one key => binaryWire key
  | .many keys => u32 keys.length++keys.flatMap binaryWire

def ClaimDue.wire (c : ClaimDue) : Bytes :=
  compactFlowClaimDueRequest::(binaryWire c.type++(optionalWire c.state++
    (binaryWire c.worker++(i64 c.leaseMs++(i64 c.limit++(i64 c.blockMs++
      ((if c.reclaimExpired then 1 else 0)::(i64 c.reclaimRatio++(i64 c.priority++
        (c.returnMode.marker::c.partitions.mode::c.partitions.wire))))))))))

def ClaimedItem.wire (x : ClaimedItem) : Bytes :=
  binaryWire x.id++(optionalWire x.partition++(binaryWire x.lease++i64 x.fencing))

def ClaimedMany.wire (requestKind okRequestKind : UInt8) (c : ClaimedMany) : Bytes :=
  (if c.okOnSuccess then okRequestKind else requestKind)::(optionalWire c.partition++
    (i64 c.nowMs++((c.runAtMs.elim [] i64)++(c.independent.marker::
      (u32 c.items.length++c.items.flatMap ClaimedItem.wire)))))

def CancelItem.wire (x : CancelItem) : Bytes :=
  binaryWire x.id++(optionalWire x.partition++i64 x.fencing)

def CancelMany.wire (c : CancelMany) : Bytes :=
  (if c.okOnSuccess then compactFlowCancelManyOkRequest else compactFlowCancelManyRequest)::
    (optionalWire c.partition++(i64 c.nowMs++(triMarker c.independent::
      (u32 c.items.length++c.items.flatMap CancelItem.wire))))

def TransitionItem.wire (x : TransitionItem) : Bytes :=
  binaryWire x.id++(optionalWire x.partition++(i64 x.fencing++optionalWire x.lease))

def TransitionMany.wire (c : TransitionMany) : Bytes :=
  (if c.okOnSuccess then compactFlowTransitionManyOkRequest
    else compactFlowTransitionManyRequest)::(binaryWire c.fromState++(binaryWire c.toState++
      (optionalWire c.partition++(i64 c.nowMs++(i64 c.runAtMs++(triMarker c.independent::
        (u32 c.items.length++c.items.flatMap TransitionItem.wire)))))))

def ValueMget.wire (c : ValueMget) : Bytes :=
  compactFlowValueMgetRequest::(i64 c.maxBytes++(u32 c.refs.length++c.refs.flatMap binaryWire))

def ValueOwner.wire (x : ValueOwner) : Bytes :=
  binaryWire x.flowId++(binaryWire x.name++optionalWire x.partition)

def ValuePutItem.wire (x : ValuePutItem) : Bytes :=
  binaryWire x.value++((x.owner.elim [] ValueOwner.wire)++i64 x.nowMs)

def valuePutWire (mode : ℕ) (c : ValuePut) : Bytes :=
  compactPipelineRequest::UInt8.ofNat (0x80 ||| mode)::
    (u32 c.length++c.flatMap ValuePutItem.wire)

/-! The content of a payload, field by field. -/

def binaryField (v : Value) : Bytes := (binaryOf v).getD []

def optionalField (v : Value) : Option Bytes := (optionalBinaryOf v).join

def intField (v : Value) : ℤ := (compactI64 v).getD 0

def listField (v : Value) : List Value := (asList v).getD []

def triField (v : Value) : Option Bool := if v.isNone then none else some v.truthy

def okField (v : Value) : Bool := !v.isNone

def createManyItemOf (item : Value) : CreateManyItem :=
  match listField item with
  | [i, p, x] => ⟨binaryField i, some (binaryField p), binaryField x⟩
  | [i, x] => ⟨binaryField i, none, binaryField x⟩
  | _ => ⟨[], none, []⟩

def createManyOf (payload : Payload) : CreateMany where
  type := binaryField (payload.get "type")
  state := binaryField (payload.get "state")
  partition := optionalField (payload.get "partition_key")
  nowMs := intField (payload.get "now_ms")
  runAtMs := intField (payload.get "run_at_ms")
  independent := triField (payload.get "independent")
  okOnSuccess := okField (payload.get "return")
  items := (listField (payload.get "items")).map createManyItemOf

def claimReturnField (v : Value) : ClaimReturn :=
  if v.isNone then .absent
  else if among v ["jobs_compact", "JOBS_COMPACT"] then .jobsCompact
  else if among v ["jobs_compact_state", "JOBS_COMPACT_STATE"] then .jobsCompactState
  else if among v ["jobs_compact_attrs", "JOBS_COMPACT_ATTRS", "jobs_compact_attributes",
    "JOBS_COMPACT_ATTRIBUTES"] then .jobsCompactAttrs
  else .jobsCompactStateAttrs

def claimPartitionsOf (payload : Payload) : ClaimPartitions :=
  if payload.contains "partition_key" then .one (binaryField (payload.get "partition_key"))
  else if payload.contains "partition_keys" then
    .many ((listField (payload.get "partition_keys")).map binaryField)
  else .unspecified

def claimDueOf (payload : Payload) : ClaimDue where
  type := binaryField (payload.get "type")
  state := optionalField (payload.get "state")
  worker := binaryField (payload.get "worker")
  leaseMs := intField (payload.get "lease_ms")
  limit := intField (payload.get "limit")
  blockMs := intField (getOr payload "block_ms" (.int (-1)))
  reclaimExpired := (getOr payload "reclaim_expired" (.bool true)).truthy
  reclaimRatio := intField (getOr payload "reclaim_ratio" (.int 25))
  priority := intField (getOr payload "priority" (.int i64Min))
  returnMode := claimReturnField (payload.get "return")
  partitions := claimPartitionsOf payload

def claimedItemOf (item : Value) : ClaimedItem :=
  match listField item with
  | [i, p, l, f] => ⟨binaryField i, some (binaryField p), binaryField l, intField f⟩
  | [i, l, f] => ⟨binaryField i, none, binaryField l, intField f⟩
  | _ => ⟨[], none, [], 0⟩

def independenceField (delayed : Bool) (payload : Payload) : Independence :=
  if !delayed && (payload.get "terminal_local_only").truthy then
    .terminal (isTrue (payload.get "independent"))
  else .plain (triField (payload.get "independent"))

def claimedManyOf (delayed : Bool) (payload : Payload) : ClaimedMany where
  okOnSuccess := okField (payload.get "return")
  partition := optionalField (payload.get "partition_key")
  nowMs := intField (payload.get "now_ms")
  runAtMs := if delayed then some (intField (payload.get "run_at_ms")) else none
  independent := independenceField delayed payload
  items := (listField (payload.get "items")).map claimedItemOf

def dictField (v : Value) : Dict Key Value := (asDict v).getD []

def cancelItemOf (item : Value) : CancelItem where
  id := binaryField (itemGet (dictField item) "id")
  partition := optionalField (itemGet (dictField item) "partition_key")
  fencing := intField (itemGet (dictField item) "fencing_token")

def cancelManyOf (payload : Payload) : CancelMany where
  okOnSuccess := okField (payload.get "return")
  partition := optionalField (payload.get "partition_key")
  nowMs := intField (payload.get "now_ms")
  independent := triField (payload.get "independent")
  items := (listField (payload.get "items")).map cancelItemOf

def transitionItemOf (item : Value) : TransitionItem where
  id := binaryField (itemGet (dictField item) "id")
  partition := optionalField (itemGet (dictField item) "partition_key")
  fencing := intField (itemGet (dictField item) "fencing_token")
  lease := optionalField (itemGet (dictField item) "lease_token")

def transitionManyOf (payload : Payload) : TransitionMany where
  okOnSuccess := okField (payload.get "return")
  fromState := binaryField (payload.get "from_state")
  toState := binaryField (payload.get "to_state")
  partition := optionalField (payload.get "partition_key")
  nowMs := intField (payload.get "now_ms")
  runAtMs := intField (payload.get "run_at_ms")
  independent := triField (payload.get "independent")
  items := (listField (payload.get "items")).map transitionItemOf

def valueMgetOf (payload : Payload) : ValueMget where
  maxBytes := intField (getOr payload "max_bytes" (.int i64Min))
  refs := (listField (payload.get "refs")).map binaryField

def valuePutItemOf (owned : Bool) (item : Payload) : ValuePutItem where
  value := binaryField (item.get "value")
  owner := if owned then some
    ⟨binaryField (item.get "owner_flow_id"), binaryField (item.get "name"),
      optionalField (item.get "partition_key")⟩ else none
  nowMs := intField (item.get "now_ms")

def ownedMode (mode : ℕ) : Bool := mode = 8 ∨ mode = 14

def valuePutOf (mode : ℕ) (items : List Payload) : ValuePut :=
  items.map (valuePutItemOf (ownedMode mode))

end FerricStore.FlowCodec
