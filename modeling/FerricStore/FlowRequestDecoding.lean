import FerricStore.FlowRequestSpecs

/-!
# Reading compact Flow requests

One reader for each request, following the order of its fields. The reader of a
request takes its content back off its wire form when every binary is shorter
than the null sentinel. An accepted payload is therefore determined by its bytes
up to content.
-/

set_option autoImplicit false

namespace FerricStore.FlowCodec
open Text Metered CompactBudget ValueCodec Reader

def triOf : UInt8 → Option (Option Bool)
  | 0 => some none
  | 1 => some (some false)
  | 2 => some (some true)
  | _ => none

def flagOf : UInt8 → Option Bool
  | 0 => some false
  | 1 => some true
  | _ => none

def kindOf (kind okKind m : UInt8) : Option Bool :=
  if m = kind then some false else if m = okKind then some true else none

/-- The mixed flag and whether a batch partition follows. -/
def createManyKindOf (m : UInt8) : Option (Bool × Bool) :=
  if m = compactFlowCreateManyRequest then some (false, false)
  else if m = compactFlowCreateManyPartitionRequest then some (false, true)
  else if m = compactFlowCreateManyMixedRequest then some (true, false)
  else none

def readCreateManyItem (mixed : Bool) : Reader CreateManyItem := do
  let id ← binary
  let partition ← present mixed binary
  let payload ← binary
  pure ⟨id, partition, payload⟩

def readCreateMany : Reader CreateMany := do
  let kind ← marked createManyKindOf
  let type ← binary
  let state ← binary
  let partition ← present kind.2 binary
  let nowMs ← int 8
  let runAtMs ← int 8
  let independent ← marked triOf
  let okOnSuccess ← marked flagOf
  let items ← counted (readCreateManyItem kind.1)
  pure ⟨type, state, partition, nowMs, runAtMs, independent, okOnSuccess, items⟩

def readPartitions (mode : UInt8) : Reader ClaimPartitions :=
  if mode = 0 then pure .unspecified
  else if mode = 1 then do
    let key ← binary
    pure (.one key)
  else if mode = 2 then do
    let keys ← counted binary
    pure (.many keys)
  else fail

def exactly (kind m : UInt8) : Option Unit := if kind = m then some () else none

def readClaimDue : Reader ClaimDue := do
  let _ ← marked (exactly compactFlowClaimDueRequest)
  let type ← binary
  let state ← optionalBinary
  let worker ← binary
  let leaseMs ← int 8
  let limit ← int 8
  let blockMs ← int 8
  let reclaimExpired ← marked flagOf
  let reclaimRatio ← int 8
  let priority ← int 8
  let returnMode ← marked claimReturnOf
  let mode ← byte
  let partitions ← readPartitions mode
  pure ⟨type, state, worker, leaseMs, limit, blockMs, reclaimExpired, reclaimRatio, priority,
    returnMode, partitions⟩

def readClaimedItem : Reader ClaimedItem := do
  let id ← binary
  let partition ← optionalBinary
  let lease ← binary
  let fencing ← int 8
  pure ⟨id, partition, lease, fencing⟩

def readClaimedMany (kind okKind : UInt8) (delayed : Bool) : Reader ClaimedMany := do
  let okOnSuccess ← marked (kindOf kind okKind)
  let partition ← optionalBinary
  let nowMs ← int 8
  let runAtMs ← present delayed (int 8)
  let independent ← marked independenceOf
  let items ← counted readClaimedItem
  pure ⟨okOnSuccess, partition, nowMs, runAtMs, independent, items⟩

def readCancelItem : Reader CancelItem := do
  let id ← binary
  let partition ← optionalBinary
  let fencing ← int 8
  pure ⟨id, partition, fencing⟩

def readCancelMany : Reader CancelMany := do
  let okOnSuccess ← marked (kindOf compactFlowCancelManyRequest compactFlowCancelManyOkRequest)
  let partition ← optionalBinary
  let nowMs ← int 8
  let independent ← marked triOf
  let items ← counted readCancelItem
  pure ⟨okOnSuccess, partition, nowMs, independent, items⟩

def readTransitionItem : Reader TransitionItem := do
  let id ← binary
  let partition ← optionalBinary
  let fencing ← int 8
  let lease ← optionalBinary
  pure ⟨id, partition, fencing, lease⟩

def readTransitionMany : Reader TransitionMany := do
  let okOnSuccess ← marked
    (kindOf compactFlowTransitionManyRequest compactFlowTransitionManyOkRequest)
  let fromState ← binary
  let toState ← binary
  let partition ← optionalBinary
  let nowMs ← int 8
  let runAtMs ← int 8
  let independent ← marked triOf
  let items ← counted readTransitionItem
  pure ⟨okOnSuccess, fromState, toState, partition, nowMs, runAtMs, independent, items⟩

def readValueMget : Reader ValueMget := do
  let _ ← marked (exactly compactFlowValueMgetRequest)
  let maxBytes ← int 8
  let refs ← counted binary
  pure ⟨maxBytes, refs⟩

def readValueOwner : Reader ValueOwner := do
  let flowId ← binary
  let name ← binary
  let partition ← optionalBinary
  pure ⟨flowId, name, partition⟩

def readValuePutItem (owned : Bool) : Reader ValuePutItem := do
  let value ← binary
  let owner ← present owned readValueOwner
  let nowMs ← int 8
  pure ⟨value, owner, nowMs⟩

def readValuePut (mode : ℕ) : Reader ValuePut := do
  let _ ← marked (exactly compactPipelineRequest)
  let _ ← marked (exactly (UInt8.ofNat (0x80 ||| mode)))
  counted (readValuePutItem (ownedMode mode))

/-! The binaries of a content. -/

def CreateManyItem.binaries (x : CreateManyItem) : List Bytes :=
  x.id::x.payload::x.partition.toList

def CreateMany.binaries (c : CreateMany) : List Bytes :=
  c.type::c.state::(c.partition.toList++c.items.flatMap CreateManyItem.binaries)

def ClaimPartitions.binaries : ClaimPartitions → List Bytes
  | .unspecified => []
  | .one key => [key]
  | .many keys => keys

def ClaimDue.binaries (c : ClaimDue) : List Bytes :=
  c.type::c.worker::(c.state.toList++c.partitions.binaries)

def ClaimedItem.binaries (x : ClaimedItem) : List Bytes :=
  x.id::x.lease::x.partition.toList

def ClaimedMany.binaries (c : ClaimedMany) : List Bytes :=
  c.partition.toList++c.items.flatMap ClaimedItem.binaries

def CancelItem.binaries (x : CancelItem) : List Bytes := x.id::x.partition.toList

def CancelMany.binaries (c : CancelMany) : List Bytes :=
  c.partition.toList++c.items.flatMap CancelItem.binaries

def TransitionItem.binaries (x : TransitionItem) : List Bytes :=
  x.id::(x.partition.toList++x.lease.toList)

def TransitionMany.binaries (c : TransitionMany) : List Bytes :=
  c.fromState::c.toState::(c.partition.toList++c.items.flatMap TransitionItem.binaries)

def ValueOwner.binaries (x : ValueOwner) : List Bytes :=
  x.flowId::x.name::x.partition.toList

def ValuePutItem.binaries (x : ValuePutItem) : List Bytes :=
  x.value::x.owner.elim [] ValueOwner.binaries

/-- Every binary is shorter than the length that stands for null. -/
def Short (bs : List Bytes) : Prop := ∀ b ∈ bs, b.length < nullU32

@[simp] theorem short_nil : Short [] := by simp [Short]

@[simp] theorem short_cons (b : Bytes) (bs : List Bytes) :
    Short (b::bs) ↔ b.length < nullU32 ∧ Short bs := by simp [Short]

@[simp] theorem short_append (bs cs : List Bytes) :
    Short (bs++cs) ↔ Short bs ∧ Short cs := by simp [Short, or_imp, forall_and]

theorem Short.item {α : Type} {f : α → List Bytes} {as : List α}
    (h : Short (as.flatMap f)) {a : α} (ha : a ∈ as) : Short (f a) :=
  fun b hb => h b (List.mem_flatMap.mpr ⟨a, ha, hb⟩)

theorem intField_range (v : Value) : i64Min ≤ intField v ∧ intField v ≤ i64Max := by
  unfold intField compactI64
  split
  · split_ifs with h
    · decide
    · simp only [Option.getD_some]
      omega
  · decide

theorem reads_int (v : Value) : Reads (int 8) (intField v) (i64 (intField v)) := by
  obtain ⟨hlo, hhi⟩ := intField_range v
  refine Reads.int 8 _ ?_ ?_
  · unfold i64Min at hlo
    omega
  · unfold i64Max at hhi
    omega

theorem reads_binary {b : Bytes} (h : b.length < nullU32) :
    Reads binary b (binaryWire b) := by
  refine Reads.binary b ?_
  unfold nullU32 at h
  omega

theorem reads_optional {o : Option Bytes} (h : Short o.toList) :
    Reads optionalBinary o (optionalWire o) := by
  cases o with
  | none =>
    exact Reads.bind (b := u32 nullU32) (d := []) (Reads.nat 4 nullU32 (by decide))
      (Reads.pure none)
  | some b =>
    simp only [Option.toList_some, short_cons, short_nil, and_true] at h
    refine Reads.bind (Reads.nat 4 b.length (by unfold nullU32 at h; omega)) ?_
    rw [if_neg (by omega)]
    exact Reads.map (Reads.take b)

/-!
## Compact Flow requests are uniquely decodable

Each reader takes back the content of an accepted payload, item by item and field
by field. `Format` collects the requests, so the statement about all of them is
one statement.
-/

theorem triOf_triMarker (o : Option Bool) : triOf (triMarker o) = some o := by
  rcases o with _ | _ | _ <;> rfl

theorem flagOf_flag (b : Bool) : flagOf (if b then 1 else 0) = some b := by
  cases b <;> rfl

theorem independenceOf_marker (i : Independence) : independenceOf i.marker = some i := by
  rcases i with (_ | _ | _) | _ | _ <;> rfl

theorem claimReturnOf_marker (r : ClaimReturn) : claimReturnOf r.marker = some r := by
  cases r <;> rfl

theorem kindOf_kind {kind okKind : UInt8} (h : kind ≠ okKind) (ok : Bool) :
    kindOf kind okKind (if ok then okKind else kind) = some ok := by
  cases ok with
  | false => simp [kindOf]
  | true => simp [kindOf, h.symm]

theorem exactly_self (kind : UInt8) : exactly kind kind = some () := if_pos rfl

theorem reads_items {α : Type} {r : Reader α} {wire : α → Bytes} (as : List α)
    (hn : as.length ≤ u32Max) (h : ∀ a ∈ as, Reads r a (wire a)) :
    Reads (counted r) as (u32 as.length++as.flatMap wire) :=
  Reads.counted as (by unfold u32Max at hn; omega) h

theorem cancelItem_reads (item : Value) (h : Short (cancelItemOf item).binaries) :
    Reads readCancelItem (cancelItemOf item) (cancelItemOf item).wire := by
  simp only [CancelItem.binaries, short_cons] at h
  exact Reads.bind (reads_binary h.1) (Reads.bind (reads_optional h.2) (Reads.map (reads_int _)))

theorem cancelMany_reads (payload : Payload) (h : Short (cancelManyOf payload).binaries)
    (hn : (cancelManyOf payload).items.length ≤ u32Max) :
    Reads readCancelMany (cancelManyOf payload) (cancelManyOf payload).wire := by
  simp only [CancelMany.binaries, short_append] at h
  refine Reads.marked_bind (kindOf_kind (by decide) _) ?_
  refine Reads.bind (reads_optional h.1) (Reads.bind (reads_int _) ?_)
  refine Reads.marked_bind (triOf_triMarker _) (Reads.map (reads_items _ hn fun x hx => ?_))
  obtain ⟨item, -, rfl⟩ := List.mem_map.mp hx
  exact cancelItem_reads item (h.2.item hx)

theorem transitionItem_reads (item : Value) (h : Short (transitionItemOf item).binaries) :
    Reads readTransitionItem (transitionItemOf item) (transitionItemOf item).wire := by
  simp only [TransitionItem.binaries, short_cons, short_append] at h
  refine Reads.bind (reads_binary h.1) (Reads.bind (reads_optional h.2.1) ?_)
  exact Reads.bind (reads_int _) (Reads.map (reads_optional h.2.2))

theorem transitionMany_reads (payload : Payload)
    (h : Short (transitionManyOf payload).binaries)
    (hn : (transitionManyOf payload).items.length ≤ u32Max) :
    Reads readTransitionMany (transitionManyOf payload) (transitionManyOf payload).wire := by
  simp only [TransitionMany.binaries, short_cons, short_append] at h
  refine Reads.marked_bind (kindOf_kind (by decide) _) ?_
  refine Reads.bind (reads_binary h.1) (Reads.bind (reads_binary h.2.1) ?_)
  refine Reads.bind (reads_optional h.2.2.1) ?_
  refine Reads.bind (reads_int _) (Reads.bind (reads_int _) ?_)
  refine Reads.marked_bind (triOf_triMarker _) (Reads.map (reads_items _ hn fun x hx => ?_))
  obtain ⟨item, -, rfl⟩ := List.mem_map.mp hx
  exact transitionItem_reads item (h.2.2.2.item hx)

theorem intField_claimedItem (item : Value) :
    ∃ v, (claimedItemOf item).fencing = intField v := by
  unfold claimedItemOf
  split
  · exact ⟨_, rfl⟩
  · exact ⟨_, rfl⟩
  · exact ⟨.none, rfl⟩

theorem claimedItem_reads (item : Value) (h : Short (claimedItemOf item).binaries) :
    Reads readClaimedItem (claimedItemOf item) (claimedItemOf item).wire := by
  simp only [ClaimedItem.binaries, short_cons] at h
  have hfencing : Reads (int 8) (claimedItemOf item).fencing
      (i64 (claimedItemOf item).fencing) := by
    obtain ⟨v, hv⟩ := intField_claimedItem item
    rw [hv]
    exact reads_int v
  refine Reads.bind (reads_binary h.1) (Reads.bind (reads_optional h.2.2) ?_)
  exact Reads.bind (reads_binary h.2.1) (Reads.map hfencing)

theorem claimedMany_reads {kind okKind : UInt8} (hkind : kind ≠ okKind) (delayed : Bool)
    (payload : Payload) (h : Short (claimedManyOf delayed payload).binaries)
    (hn : (claimedManyOf delayed payload).items.length ≤ u32Max) :
    Reads (readClaimedMany kind okKind delayed) (claimedManyOf delayed payload)
      ((claimedManyOf delayed payload).wire kind okKind) := by
  simp only [ClaimedMany.binaries, short_append] at h
  have hrun : Reads (present delayed (int 8)) (claimedManyOf delayed payload).runAtMs
      ((claimedManyOf delayed payload).runAtMs.elim [] i64) := by
    cases delayed with
    | false => exact Reads.pure none
    | true => exact Reads.map (reads_int _)
  refine Reads.marked_bind (kindOf_kind hkind _) ?_
  refine Reads.bind (reads_optional h.1) (Reads.bind (reads_int _) (Reads.bind hrun ?_))
  refine Reads.marked_bind (independenceOf_marker _)
    (Reads.map (reads_items _ hn fun x hx => ?_))
  obtain ⟨item, -, rfl⟩ := List.mem_map.mp hx
  exact claimedItem_reads item (h.2.item hx)

theorem createManyItem_reads {x : CreateManyItem} {mixed : Bool}
    (hx : x.partition.isSome = mixed) (h : Short x.binaries) :
    Reads (readCreateManyItem mixed) x x.wire := by
  simp only [CreateManyItem.binaries, short_cons] at h
  subst hx
  refine Reads.bind (reads_binary h.1) (Reads.bind (Reads.present _ fun p hp => ?_) ?_)
  · exact reads_binary (h.2.2 p (by simp [hp]))
  · exact Reads.map (reads_binary h.2.1)

theorem createManyKindOf_kind {mixed : Bool} {partition : Option Bytes}
    (h : mixed → partition = none) :
    createManyKindOf (createManyKind mixed partition) = some (mixed, partition.isSome) := by
  cases mixed with
  | true =>
    rw [h rfl]
    rfl
  | false => cases partition <;> rfl

theorem createMany_reads (payload : Payload) (h : Short (createManyOf payload).binaries)
    (hn : (createManyOf payload).items.length ≤ u32Max)
    (hmixed : ∀ x ∈ (createManyOf payload).items,
      x.partition.isSome = (createManyOf payload).mixed) :
    Reads readCreateMany (createManyOf payload) (createManyOf payload).wire := by
  simp only [CreateMany.binaries, short_cons, short_append] at h
  have hkind : (createManyOf payload).mixed → (createManyOf payload).partition = none := by
    simp only [CreateMany.mixed, Bool.and_eq_true, Option.isNone_iff_eq_none]
    exact fun hm => hm.1
  refine Reads.marked_bind (createManyKindOf_kind hkind) ?_
  refine Reads.bind (reads_binary h.1) (Reads.bind (reads_binary h.2.1) ?_)
  refine Reads.bind (Reads.present _ fun p hp => ?_) ?_
  · exact reads_binary (h.2.2.1 p (by simp [hp]))
  refine Reads.bind (reads_int _) (Reads.bind (reads_int _) ?_)
  refine Reads.marked_bind (triOf_triMarker _) (Reads.marked_bind (flagOf_flag _) ?_)
  exact Reads.map (reads_items _ hn fun x hx =>
    createManyItem_reads (hmixed x hx) (h.2.2.2.item hx))

theorem partitions_reads (p : ClaimPartitions) (h : Short p.binaries)
    (hn : ∀ keys, p = .many keys → keys.length ≤ u32Max) :
    Reads (readPartitions p.mode) p p.wire := by
  cases p with
  | unspecified => exact Reads.pure _
  | one key =>
    simp only [ClaimPartitions.binaries, short_cons] at h
    exact Reads.map (reads_binary h.1)
  | many keys =>
    exact Reads.map (reads_items keys (hn keys rfl) fun key hk => reads_binary (h key hk))

theorem claimDue_reads (payload : Payload) (h : Short (claimDueOf payload).binaries)
    (hn : ∀ keys, claimPartitionsOf payload = .many keys → keys.length ≤ u32Max) :
    Reads readClaimDue (claimDueOf payload) (claimDueOf payload).wire := by
  simp only [ClaimDue.binaries, short_cons, short_append] at h
  refine Reads.marked_bind (exactly_self _) (Reads.bind (reads_binary h.1) ?_)
  refine Reads.bind (reads_optional h.2.2.1) (Reads.bind (reads_binary h.2.1) ?_)
  refine Reads.bind (reads_int _) (Reads.bind (reads_int _) (Reads.bind (reads_int _) ?_))
  refine Reads.marked_bind (flagOf_flag _) ?_
  refine Reads.bind (reads_int _) (Reads.bind (reads_int _) ?_)
  refine Reads.marked_bind (claimReturnOf_marker _) (Reads.byte_bind ?_)
  exact Reads.map (partitions_reads _ h.2.2.2 hn)

theorem valueMget_reads (payload : Payload) (h : Short (valueMgetOf payload).refs)
    (hn : (valueMgetOf payload).refs.length ≤ u32Max) :
    Reads readValueMget (valueMgetOf payload) (valueMgetOf payload).wire := by
  refine Reads.marked_bind (exactly_self _) (Reads.bind (reads_int _) ?_)
  exact Reads.map (reads_items _ hn fun b hb => reads_binary (h b hb))

theorem valueOwner_reads {x : ValueOwner} (h : Short x.binaries) :
    Reads readValueOwner x x.wire := by
  simp only [ValueOwner.binaries, short_cons] at h
  refine Reads.bind (reads_binary h.1) (Reads.bind (reads_binary h.2.1) ?_)
  exact Reads.map (reads_optional h.2.2)

theorem valuePutItem_reads (owned : Bool) (item : Payload)
    (h : Short (valuePutItemOf owned item).binaries) :
    Reads (readValuePutItem owned) (valuePutItemOf owned item)
      (valuePutItemOf owned item).wire := by
  simp only [ValuePutItem.binaries, short_cons] at h
  have howner : (valuePutItemOf owned item).owner.isSome = owned := by cases owned <;> rfl
  have hpresent := Reads.present (r := readValueOwner) (valuePutItemOf owned item).owner
    fun x hx => valueOwner_reads (by simpa [hx] using h.2)
  rw [howner] at hpresent
  exact Reads.bind (reads_binary h.1) (Reads.bind hpresent (Reads.map (reads_int _)))

theorem valuePut_reads (mode : ℕ) (items : List Payload)
    (h : Short ((valuePutOf mode items).flatMap ValuePutItem.binaries))
    (hn : (valuePutOf mode items).length ≤ u32Max) :
    Reads (readValuePut mode) (valuePutOf mode items)
      (valuePutWire mode (valuePutOf mode items)) := by
  refine Reads.marked_bind (exactly_self _) (Reads.marked_bind (exactly_self _) ?_)
  refine reads_items _ hn fun x hx => ?_
  obtain ⟨item, -, rfl⟩ := List.mem_map.mp hx
  exact valuePutItem_reads _ item (h.item hx)

/-- The compact Flow requests; a value pipeline is one request for each mode. -/
inductive Format where
  | createMany
  | claimDue
  | completeMany
  | failMany
  | retryMany
  | cancelMany
  | transitionMany
  | valueMget
  | valuePut (mode : ℕ)
  deriving DecidableEq, Repr

namespace Format

def Source : Format → Type
  | .valuePut _ => List Payload
  | _ => Payload

def Content : Format → Type
  | .createMany => CreateMany
  | .claimDue => ClaimDue
  | .completeMany | .failMany | .retryMany => ClaimedMany
  | .cancelMany => CancelMany
  | .transitionMany => TransitionMany
  | .valueMget => ValueMget
  | .valuePut _ => ValuePut

def encode (rt : Runtime) : (f : Format) → f.Source → Metered Err Bytes
  | .createMany => compactFlowCreateManyPayload
  | .claimDue => compactFlowClaimDuePayload
  | .completeMany => compactFlowCompleteManyPayload rt
  | .failMany => compactFlowFailManyPayload rt
  | .retryMany => compactFlowRetryManyPayload rt
  | .cancelMany => compactFlowCancelManyPayload rt
  | .transitionMany => compactFlowTransitionManyPayload rt
  | .valueMget => compactFlowValueMgetPayload
  | .valuePut mode => compactFlowValuePutPayload mode

def content : (f : Format) → f.Source → f.Content
  | .createMany => createManyOf
  | .claimDue => claimDueOf
  | .completeMany | .failMany => claimedManyOf false
  | .retryMany => claimedManyOf true
  | .cancelMany => cancelManyOf
  | .transitionMany => transitionManyOf
  | .valueMget => valueMgetOf
  | .valuePut mode => valuePutOf mode

def binaries : (f : Format) → f.Content → List Bytes
  | .createMany => CreateMany.binaries
  | .claimDue => ClaimDue.binaries
  | .completeMany | .failMany | .retryMany => ClaimedMany.binaries
  | .cancelMany => CancelMany.binaries
  | .transitionMany => TransitionMany.binaries
  | .valueMget => ValueMget.refs
  | .valuePut _ => fun items => items.flatMap ValuePutItem.binaries

def reader : (f : Format) → Reader f.Content
  | .createMany => readCreateMany
  | .claimDue => readClaimDue
  | .completeMany | .failMany =>
    readClaimedMany compactFlowCompleteManyRequest compactFlowCompleteManyOkRequest false
  | .retryMany => readClaimedMany compactFlowRetryManyRequest compactFlowRetryManyOkRequest true
  | .cancelMany => readCancelMany
  | .transitionMany => readTransitionMany
  | .valueMget => readValueMget
  | .valuePut mode => readValuePut mode

def decode (f : Format) (b : Bytes) : Option f.Content := f.reader.parse b

/-- The canonical content of a payload has only binaries shorter than the null
sentinel. -/
def ShortBinaries (f : Format) (x : f.Source) : Prop := Short (f.binaries (f.content x))

theorem exact (rt : Runtime) (f : Format) (x : f.Source) : Exact 0 (f.encode rt x) := by
  cases f with
  | createMany => exact createMany_exact x
  | claimDue => exact claimDue_exact x
  | completeMany | failMany | retryMany => exact claimedMany_exact rt _ _ _ x
  | cancelMany => exact cancelMany_exact rt x
  | transitionMany => exact transitionMany_exact rt x
  | valueMget => exact valueMget_exact x
  | valuePut mode => exact valuePut_exact mode x

theorem reserved (rt : Runtime) (f : Format) (x : f.Source) (b : Bytes) (w : ℕ)
    (h : f.encode rt x none 0 = .ok (b, w)) : w = b.length := by
  cases f with
  | createMany => exact (createMany_spec x b w h).2.1
  | claimDue => exact (claimDue_spec x b w h).2.1
  | completeMany | failMany | retryMany => exact (claimedMany_spec rt _ _ _ x b w h).2.1
  | cancelMany => exact (cancelMany_spec rt x b w h).2.1
  | transitionMany => exact (transitionMany_spec rt x b w h).2.1
  | valueMget => exact (valueMget_spec x b w h).2.1
  | valuePut mode => exact (valuePut_spec mode x b w h).2.1

theorem reads (rt : Runtime) (f : Format) (x : f.Source) (b : Bytes) (w : ℕ)
    (h : f.encode rt x none 0 = .ok (b, w)) (hs : f.ShortBinaries x) :
    Reads f.reader (f.content x) b := by
  cases f with
  | createMany =>
    obtain ⟨rfl, -, hn, hmixed⟩ := createMany_spec x b w h
    exact createMany_reads x hs hn hmixed
  | claimDue =>
    obtain ⟨rfl, -, hn⟩ := claimDue_spec x b w h
    exact claimDue_reads x hs hn
  | completeMany | failMany | retryMany =>
    obtain ⟨rfl, -, hn⟩ := claimedMany_spec rt _ _ _ x b w h
    exact claimedMany_reads (by decide) _ x hs hn
  | cancelMany =>
    obtain ⟨rfl, -, hn⟩ := cancelMany_spec rt x b w h
    exact cancelMany_reads x hs hn
  | transitionMany =>
    obtain ⟨rfl, -, hn⟩ := transitionMany_spec rt x b w h
    exact transitionMany_reads x hs hn
  | valueMget =>
    obtain ⟨rfl, -, hn⟩ := valueMget_spec x b w h
    exact valueMget_reads x hs hn
  | valuePut mode =>
    obtain ⟨rfl, -, hn, -⟩ := valuePut_spec mode x b w h
    exact valuePut_reads mode x hs ((List.length_map _).trans_le hn)

/-- `f` turns `x` into `b` under the policy. -/
def Emits (rt : Runtime) (policy : CompactEncodingPolicy) (f : Format) (x : f.Source)
    (b : Bytes) : Prop := runPolicy policy (f.encode rt x) = .ok (some b)

theorem Emits.unlimited {rt : Runtime} {policy : CompactEncodingPolicy} {f : Format}
    {x : f.Source} {b : Bytes} (h : Emits rt policy f x b) :
    ∃ w, f.encode rt x none 0 = .ok (b, w) := by
  unfold Emits runPolicy at h
  split_ifs at h
  · cases he : f.encode rt x policy.maxPayloadBytes 0 with
    | error e =>
      rw [he] at h
      cases e <;> cases h
    | ok r =>
      rw [he] at h
      cases h
      exact ⟨r.2, (exact rt f x).unlimited he⟩
  · cases h

/-- The decoder of a format gives back the content of every accepted payload, so
payloads of different content have different bytes. -/
theorem compact_request_uniquely_decodable (rt : Runtime) (f : Format)
    (policy : CompactEncodingPolicy) (x : f.Source) (b : Bytes)
    (h : Emits rt policy f x b) (hs : f.ShortBinaries x) :
    f.decode b = some (f.content x) ∧
      ∀ (policy' : CompactEncodingPolicy) (y : f.Source), Emits rt policy' f y b →
        f.ShortBinaries y → f.content y = f.content x := by
  obtain ⟨w, hx⟩ := h.unlimited
  have hreads := reads rt f x b w hx hs
  refine ⟨hreads.parse, fun policy' y hy hshort => ?_⟩
  obtain ⟨v, hyx⟩ := hy.unlimited
  exact (reads rt f y b v hyx hshort).unique hreads

/-- Two flows with partitions of their own. -/
def mixedBatch : Payload :=
  [("type", .str (lit "job")), ("state", .str (lit "new")), ("now_ms", .int 5),
    ("run_at_ms", .int (-1)), ("independent", .bool true),
    ("items", .list [.list [.str (lit "a"), .bytes [1], .bytes []],
      .list [.str (lit "b"), .bytes [2, 3], .bytes [9]]])]

theorem mixedBatch_decodes :
    decode .createMany (createManyOf mixedBatch).wire = some (createManyOf mixedBatch) ∧
      ∀ (policy : CompactEncodingPolicy) (y : Payload),
        Emits Runtime.ascii policy .createMany y (createManyOf mixedBatch).wire →
        ShortBinaries .createMany y → createManyOf y = createManyOf mixedBatch :=
  compact_request_uniquely_decodable Runtime.ascii .createMany unboundedPolicy mixedBatch
    (createManyOf mixedBatch).wire rfl (by
      show ∀ b ∈ (createManyOf mixedBatch).binaries, b.length < nullU32
      decide)

end Format
end FerricStore.FlowCodec
