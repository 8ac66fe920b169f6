import FerricStore.FlowCommands
import FerricStore.FlowRequestDecoding
import FerricStore.PipelineItems
import FerricStore.RawPipelineAdmission
import FerricStore.RawPipelineSizes

/-!
# What a compact FLOW.GET batch says

A batch has one mode, and a return mode is asked for by a command. The reader of
a batch takes the ids, partitions and return modes back off its bytes; the
generic builder says what each command asks on its own. The two agree unless one
command of the batch asks for meta and another does not, or a partition has the
length of the null sentinel.
-/

set_option autoImplicit false

namespace FerricStore.RawPipelines
open Text Metered CompactBudget ValueCodec FlowCodec FlowOptions FlowCommands Pipelines Reader

/-- The mode of a batch, and whether the response is to hold values only. -/
def flowGetModeOf (m : UInt8) : Option ℕ :=
  if m.toNat % 128 ∈ [9, 16, 17] then some (m.toNat % 128) else none

def readPartition (mode : ℕ) (id : Bytes) : Reader FlowGetItem := do
  let partition ← optionalBinary
  pure ⟨id, partition, mode = 17⟩

def readFlowGetItem (mode : ℕ) : Reader FlowGetItem := do
  let id ← binary
  if mode = 9 then pure ⟨id, none, false⟩ else readPartition mode id

def readFlowGetPipeline : Reader (List FlowGetItem) := do
  let _ ← marked (exactly compactPipelineRequest)
  let mode ← marked flowGetModeOf
  counted (readFlowGetItem mode)

def flowGetWire (mode : ℕ) (x : FlowGetItem) : Bytes :=
  binaryWire x.id++if mode = 9 then [] else optionalWire x.partition

theorem flowGetPart_wire {mode used w : ℕ} {x : FlowGetItem} {b : Bytes}
    (h : flowGetPart mode x none used = .ok (b, w)) :
    b = flowGetWire mode x ∧ x.id.length ≤ u32Max ∧ (mode ≠ 9 → withinU32 x.partition) := by
  simp only [flowGetPart, bind_ok_iff, compactBinary_ok_iff, ite_ok_iff, pure_ok_iff,
    compactOptionalBinary_ok_iff] at h
  obtain ⟨_, _, ⟨hid, rfl, rfl⟩, ⟨hm, rfl, rfl⟩ | ⟨hm, _, _, ⟨hp, rfl, rfl⟩, rfl, rfl⟩⟩ := h
  · exact ⟨by simp [flowGetWire, hm], hid, fun hn => absurd hm hn⟩
  · exact ⟨by simp [flowGetWire, hm], hid, fun _ => hp⟩

theorem flowGetParts_wire {mode used w : ℕ} {items : List FlowGetItem} {parts : List Bytes}
    (h : each (flowGetPart mode) items none used = .ok (parts, w)) :
    parts.flatten = items.flatMap (flowGetWire mode) ∧
      ∀ x ∈ items, x.id.length ≤ u32Max ∧ (mode ≠ 9 → withinU32 x.partition) := by
  induction items generalizing used w parts with
  | nil =>
    obtain ⟨rfl, -⟩ := pure_eq_ok h
    exact ⟨rfl, by simp⟩
  | cons x items ih =>
    simp only [each, bind_ok_iff, pure_ok_iff] at h
    obtain ⟨b, v, hb, bs, u, hbs, rfl, rfl⟩ := h
    obtain ⟨rfl, hx⟩ := flowGetPart_wire hb
    obtain ⟨hflat, hitems⟩ := ih hbs
    refine ⟨by rw [List.flatten_cons, hflat, List.flatMap_cons], ?_⟩
    exact List.forall_mem_cons.mpr ⟨hx, hitems⟩

/-- A partition whose length is written as the absent partition. -/
def readsAsAbsent (partition : Option Bytes) : Prop :=
  ∃ b, partition = some b ∧ b.length = nullU32

theorem readFlowGetItem_plain (x : FlowGetItem) (rest : Bytes) (hid : x.id.length ≤ u32Max) :
    readFlowGetItem 9 (flowGetWire 9 x++rest) = some (⟨x.id, none, false⟩, rest) := by
  have hread : Reads binary x.id (binaryWire x.id) :=
    Reads.binary x.id (by unfold u32Max at hid; omega)
  have hmap := Reads.map (f := fun id => (⟨id, none, false⟩ : FlowGetItem)) hread
  simpa [readFlowGetItem, flowGetWire] using hmap rest

theorem readFlowGetItem_partition {mode : ℕ} (x : FlowGetItem) (rest : Bytes) (hm : mode ≠ 9)
    (hid : x.id.length ≤ u32Max) (hp : withinU32 x.partition)
    (hs : ¬ readsAsAbsent x.partition) :
    readFlowGetItem mode (flowGetWire mode x++rest) =
      some (⟨x.id, x.partition, mode = 17⟩, rest) := by
  have hread : Reads binary x.id (binaryWire x.id) :=
    Reads.binary x.id (by unfold u32Max at hid; omega)
  have hshort : Short x.partition.toList := by
    cases hx : x.partition with
    | none => exact short_nil
    | some b =>
      have hle := hp b hx
      have hne : b.length ≠ nullU32 := fun he => hs ⟨b, hx, he⟩
      rw [Option.toList_some, short_cons]
      refine ⟨?_, short_nil⟩
      unfold u32Max at hle
      unfold nullU32 at hne ⊢
      omega
  have hmap := Reads.map (f := fun p => (⟨x.id, p, mode = 17⟩ : FlowGetItem))
    (reads_optional hshort)
  have hr := Reads.bind (f := readPartition mode) hread hmap rest
  simpa [readFlowGetItem, flowGetWire, hm] using hr

theorem readFlowGetItem_absent {mode : ℕ} (x : FlowGetItem) (rest : Bytes) (hm : mode ≠ 9)
    (hid : x.id.length ≤ u32Max) (hs : readsAsAbsent x.partition) :
    ∃ rest', readFlowGetItem mode (flowGetWire mode x++rest) =
      some (⟨x.id, none, mode = 17⟩, rest') := by
  obtain ⟨b, hb, hlen⟩ := hs
  have hread : Reads binary x.id (binaryWire x.id) :=
    Reads.binary x.id (by unfold u32Max at hid; omega)
  have hnull : Reads optionalBinary none (u32 nullU32) := reads_optional short_nil
  have hmap := Reads.map (f := fun p => (⟨x.id, p, mode = 17⟩ : FlowGetItem)) hnull
  have hr := Reads.bind (f := readPartition mode) hread hmap (b++rest)
  refine ⟨b++rest, ?_⟩
  simpa [readFlowGetItem, flowGetWire, hm, hb, optionalWire, binaryWire, hlen] using hr

theorem flowGetMode_eq_nine {items : List FlowGetItem} (h : flowGetMode items = 9)
    {x : FlowGetItem} (hx : x ∈ items) : x.isMeta = false ∧ x.partition = none := by
  unfold flowGetMode at h
  by_cases hm : items.any FlowGetItem.isMeta
  · simp [hm] at h
  by_cases hp : items.any fun x => x.partition.isSome
  · simp [hm, hp] at h
  simp only [List.any_eq_true, not_exists, not_and, Bool.not_eq_true] at hm hp
  exact ⟨hm x hx, by simpa using hp x hx⟩

theorem flowGetMode_eq_meta (items : List FlowGetItem) :
    flowGetMode items = 17 ↔ ∃ x ∈ items, x.isMeta = true := by
  rw [← List.any_eq_true]
  unfold flowGetMode
  split_ifs with hm hp <;> simp [hm]

/-- Every command asks for meta, or none does. -/
def UniformReturn {α : Type} (asksMeta : α → Bool) (commands : List α) : Prop :=
  (∀ c ∈ commands, asksMeta c = true) ∨ ∀ c ∈ commands, asksMeta c = false

theorem uniform_iff_mode (items : List FlowGetItem) :
    UniformReturn FlowGetItem.isMeta items ↔
      ∀ x ∈ items, x.isMeta = decide (flowGetMode items = 17) := by
  constructor
  · rintro (h | h) x hx
    · have hm := (flowGetMode_eq_meta items).mpr ⟨x, hx, h x hx⟩
      simp [h x hx, hm]
    · have hm : ¬ flowGetMode items = 17 := by
        rw [flowGetMode_eq_meta]
        rintro ⟨y, hy, ht⟩
        rw [h y hy] at ht
        cases ht
      simp [h x hx, hm]
  · intro h
    by_cases hm : flowGetMode items = 17
    · exact .inl fun x hx => by simpa [hm] using h x hx
    · exact .inr fun x hx => by simpa [hm] using h x hx

/-- The reader takes an item back exactly when the batch's mode says of it what it
says itself, and its partition is not the sentinel. -/
def Expressed (mode : ℕ) (x : FlowGetItem) : Prop :=
  x.isMeta = decide (mode = 17) ∧ ¬ readsAsAbsent x.partition

/-- What the encoder guarantees of an item it wrote in a mode. -/
structure Written (mode : ℕ) (x : FlowGetItem) : Prop where
  id : x.id.length ≤ u32Max
  partition : mode ≠ 9 → withinU32 x.partition
  plain : mode = 9 → x.isMeta = false ∧ x.partition = none

theorem readFlowGetItem_expressed {mode : ℕ} {x : FlowGetItem} (hw : Written mode x)
    (he : Expressed mode x) : Reads (readFlowGetItem mode) x (flowGetWire mode x) := by
  intro rest
  by_cases hm : mode = 9
  · subst hm
    obtain ⟨hmeta, hnone⟩ := hw.plain rfl
    rw [readFlowGetItem_plain x rest hw.id]
    obtain ⟨id, partition, isMeta⟩ := x
    cases hmeta
    cases hnone
    rfl
  · rw [readFlowGetItem_partition x rest hm hw.id (hw.partition hm) he.2, ← he.1]

/-- A read item is the written one only if the mode expresses it. -/
theorem readFlowGetItem_inv {mode : ℕ} {x : FlowGetItem} {rest rest' : Bytes}
    (hw : Written mode x)
    (h : readFlowGetItem mode (flowGetWire mode x++rest) = some (x, rest')) :
    Expressed mode x := by
  by_cases hm : mode = 9
  · subst hm
    obtain ⟨hmeta, hnone⟩ := hw.plain rfl
    refine ⟨by simp [hmeta], ?_⟩
    rintro ⟨b, hb, -⟩
    rw [hnone] at hb
    cases hb
  · by_cases hs : readsAsAbsent x.partition
    · obtain ⟨rest'', hr⟩ := readFlowGetItem_absent x rest hm hw.id hs
      rw [hr] at h
      simp only [Option.some.injEq, Prod.mk.injEq] at h
      obtain ⟨b, hb, -⟩ := hs
      have hp := congrArg FlowGetItem.partition h.1
      rw [hb] at hp
      cases hp
    · rw [readFlowGetItem_partition x rest hm hw.id (hw.partition hm) hs] at h
      simp only [Option.some.injEq, Prod.mk.injEq] at h
      have hp := congrArg FlowGetItem.isMeta h.1
      exact ⟨hp.symm, hs⟩

theorem bind_reads {α β : Type} {r : Reader α} {f : α → Reader β} {a : α} {b : Bytes}
    (h : Reads r a b) (rest : Bytes) : (r >>= f) (b++rest) = f a rest := by
  show ((r (b++rest)).bind fun p => f p.1 p.2) = _
  rw [h]
  rfl

theorem times_eq_some {α : Type} {r : Reader α} {n : ℕ} {a : α} {as : List α}
    {bs rest : Bytes} (h : times r (n+1) bs = some (a::as, rest)) :
    ∃ more, r bs = some (a, more) ∧ times r n more = some (as, rest) := by
  cases hr : r bs with
  | none =>
    have hn : times r (n+1) bs = none := by
      show (r bs).bind _ = none
      rw [hr]
      rfl
    rw [hn] at h
    cases h
  | some p =>
    obtain ⟨c, more⟩ := p
    have hs : times r (n+1) bs = (times r n more).bind fun q => some (c::q.1, q.2) := by
      show (r bs).bind _ = _
      rw [hr]
      rfl
    rw [hs] at h
    cases ht : times r n more with
    | none =>
      rw [ht] at h
      cases h
    | some q =>
      rw [ht] at h
      cases h
      exact ⟨more, rfl, ht⟩

theorem readFlowGetItems_inv {mode : ℕ} {items : List FlowGetItem} {rest rest' : Bytes}
    (hw : ∀ x ∈ items, Written mode x)
    (h : times (readFlowGetItem mode) items.length (items.flatMap (flowGetWire mode)++rest) =
      some (items, rest')) : ∀ x ∈ items, Expressed mode x := by
  induction items generalizing rest with
  | nil => simp
  | cons x items ih =>
    rw [List.forall_mem_cons] at hw
    rw [List.flatMap_cons, List.append_assoc] at h
    obtain ⟨more, hx, hmore⟩ := times_eq_some h
    have he := readFlowGetItem_inv hw.1 hx
    rw [readFlowGetItem_expressed hw.1 he] at hx
    simp only [Option.some.injEq, Prod.mk.injEq, true_and] at hx
    subst hx
    exact List.forall_mem_cons.mpr ⟨he, ih hw.2 hmore⟩

theorem flowGetModeOf_mode (valuesOnly : Bool) (items : List FlowGetItem) :
    flowGetModeOf (UInt8.ofNat (withValuesOnly (flowGetMode items) valuesOnly)) =
      some (flowGetMode items) := by
  unfold flowGetMode
  cases valuesOnly <;> split_ifs <;> decide

theorem parse_flowGetPipeline {items : List FlowGetItem} {m : UInt8} {body : Bytes} {mode : ℕ}
    (hm : flowGetModeOf m = some mode) (hn : items.length ≤ u32Max) :
    parse readFlowGetPipeline (compactPipelineRequest::m::(u32 items.length++body)) =
      parse (times (readFlowGetItem mode) items.length) body := by
  have hcount := Reads.nat 4 items.length (by unfold u32Max at hn; omega)
  have hrun : readFlowGetPipeline (compactPipelineRequest::m::(u32 items.length++body)) =
      times (readFlowGetItem mode) items.length body := by
    refine (bind_reads (Reads.marked (exactly_self _)) _).trans ?_
    refine (bind_reads (Reads.marked hm) _).trans ?_
    exact bind_reads hcount body
  rw [parse, hrun, parse]

/-- The bytes of a batch say what its items say if and only if the return mode is
uniform and no partition has the length of the sentinel. -/
theorem parse_flowGetBody {valuesOnly : Bool} {items : List FlowGetItem} {used w : ℕ}
    {payload : Bytes} (h : flowGetBody valuesOnly items none used = .ok (payload, w)) :
    parse readFlowGetPipeline payload = some items ↔
      UniformReturn FlowGetItem.isMeta items ∧ ∀ x ∈ items, ¬ readsAsAbsent x.partition := by
  simp only [flowGetBody, bind_ok_iff, packPipelineHeader_ok_iff, pure_ok_iff] at h
  obtain ⟨_, _, ⟨⟨-, hn⟩, rfl, rfl⟩, parts, _, hparts, rfl, rfl⟩ := h
  obtain ⟨hflat, hsizes⟩ := flowGetParts_wire hparts
  have hw : ∀ x ∈ items, Written (flowGetMode items) x := fun x hx =>
    ⟨(hsizes x hx).1, (hsizes x hx).2, fun hm => flowGetMode_eq_nine hm hx⟩
  rw [hflat, List.cons_append, List.cons_append,
    parse_flowGetPipeline (flowGetModeOf_mode valuesOnly items) hn, uniform_iff_mode]
  constructor
  · intro hp
    have ht : times (readFlowGetItem (flowGetMode items)) items.length
        (items.flatMap (flowGetWire (flowGetMode items))++[]) = some (items, []) := by
      rw [List.append_nil]
      unfold parse at hp
      split at hp
      · next hr =>
        cases hp
        exact hr
      · cases hp
    have he := readFlowGetItems_inv hw ht
    exact ⟨fun x hx => (he x hx).1, fun x hx => (he x hx).2⟩
  · rintro ⟨hmeta, hs⟩
    refine Reads.parse (Reads.times items fun x hx => ?_)
    exact readFlowGetItem_expressed (hw x hx) ⟨hmeta x hx, hs x hx⟩

/-- What the fields of a `FLOW.GET` request ask for. -/
def requestedReturn (rt : Runtime) (v : Value) : Option Bool :=
  if v.isNone then some false
  else match rt.text v with
    | .ok mode => if rt.lowerText mode = lit "meta" then some true else none
    | .error _ => none

def requestedFields (rt : Runtime) (payload : Payload) : Option FlowGetItem := do
  let flowId ← binaryOf (payload.get "id")
  let partition ← optionalBinaryOf (payload.get "partition_key")
  let isMeta ← requestedReturn rt (payload.get "return")
  some ⟨flowId, partition, isMeta⟩

def requestedItem (rt : Runtime) (request : Except Err ProtocolCommand) : Option FlowGetItem :=
  match request with
  | .ok ⟨_, .fields payload, _, _⟩ => requestedFields rt payload
  | _ => none

/-- Decoding the payload gives, at every place, what the request there asks for. -/
def Faithful (rt : Runtime) (payload : Bytes) (requests : List (Except Err ProtocolCommand)) :
    Prop :=
  (parse readFlowGetPipeline payload).map (List.map some) = some (requests.map (requestedItem rt))

def builtAsksMeta (command : ProtocolCommand) : Bool :=
  match command.payload with
  | .fields payload => !(payload.get "return").isNone
  | .raw _ => false

def builtPartition (command : ProtocolCommand) : Option Bytes :=
  match command.payload with
  | .fields payload => binaryOf (payload.get "partition_key")
  | .raw _ => none

/-- The last value under one of the names of an option list. -/
def lastOption (rt : Runtime) (names : List String) : List Value → Option Value
  | option::value::rest => (lastOption rt names rest).or
      (if rt.commandToken option ∈ names.map lit then some value else none)
  | _ => none

def rawOptions : Command → List Value
  | _::_::options => options
  | _ => []

def rawAsksMeta (rt : Runtime) (command : Command) : Bool :=
  (lastOption rt ["RETURN"] (rawOptions command)).isSome

def rawPartition (rt : Runtime) (command : Command) : Option Bytes :=
  (lastOption rt ["PARTITION", "PARTITION_KEY"] (rawOptions command)).bind binaryOf

theorem optionalBinaryOf_eq {v : Value} {o : Option Bytes} (h : optionalBinaryOf v = some o) :
    o = binaryOf v := by
  unfold optionalBinaryOf at h
  split at h
  · cases h
    rfl
  · obtain ⟨b, hb, rfl⟩ := Option.map_eq_some_iff.mp h
    exact hb.symm

theorem parse_eq_iff_faithful {rt : Runtime} {payload : Bytes}
    {requests : List (Except Err ProtocolCommand)} {items : List FlowGetItem}
    (h : requests.map (requestedItem rt) = items.map some) :
    Faithful rt payload requests ↔ parse readFlowGetPipeline payload = some items := by
  unfold Faithful
  rw [h]
  cases parse readFlowGetPipeline payload with
  | none => simp
  | some xs =>
    simp only [Option.map_some, Option.some.injEq]
    exact (List.map_injective_iff.mpr (Option.some_injective _)).eq_iff

/-- A limited run that succeeds is the unlimited run. -/
def Relaxed {α : Type} (x : Metered Err α) : Prop :=
  ∀ m used r, x (some m) used = .ok r → x none used = .ok r

theorem Exact.toRelaxed {α : Type} {lo : ℕ} {x : Metered Err α} (h : Exact lo x) : Relaxed x :=
  h.relaxed

theorem Relaxed.bind {α β : Type} {x : Metered Err α} {f : α → Metered Err β}
    (hx : Relaxed x) (hf : ∀ a, Relaxed (f a)) : Relaxed (x >>= f) := by
  intro m used r h
  obtain ⟨a, v, ha, hb⟩ := bind_eq_ok (b := r.1) (w := r.2) h
  rw [bind_of_ok (hx m used _ ha)]
  exact hf a m v _ hb

theorem Relaxed.each {α β : Type} {f : α → Metered Err β} (hf : ∀ a, Relaxed (f a))
    (as : List α) : Relaxed (each f as) := by
  induction as with
  | nil => exact fun _ _ _ h => h
  | cons a as ih => exact (hf a).bind fun b => ih.bind fun bs => fun _ _ _ h => h

theorem Relaxed.unreserved (v : Value) : Relaxed (unreservedMaybeBytes v) :=
  fun m used r h => unreservedMaybeBytes_relaxed v m used r h

theorem flowGetReturn_relaxed (rt : Runtime) (v : Value) :
    Relaxed (flowGetFields.flowGetReturn rt v) := by
  unfold flowGetFields.flowGetReturn
  split
  · exact fun _ _ _ h => h
  · refine Relaxed.bind (@Exact.toRelaxed _ 0 _ inferInstance) fun mode => ?_
    split <;> exact fun _ _ _ h => h

theorem flowGetPartition_relaxed (v : Value) : Relaxed (flowGetFields.flowGetPartition v) := by
  unfold flowGetFields.flowGetPartition
  split
  · exact fun _ _ _ h => h
  · refine (Relaxed.unreserved v).bind fun o => ?_
    exact Relaxed.bind (@Exact.toRelaxed _ 0 _ inferInstance) fun _ _ _ _ h => h

theorem flowGetBuilt_relaxed (rt : Runtime) (command : ProtocolCommand) :
    Relaxed (flowGetBuilt rt command) := by
  unfold flowGetBuilt
  split
  · exact fun _ _ _ h => h
  · split
    · exact fun _ _ _ h => h
    · refine Relaxed.bind ?_ fun _ => (flowGetReturn_relaxed rt _).bind fun isMeta => ?_
      · unfold guardFields
        split <;> exact fun _ _ _ h => h
      · refine (Relaxed.unreserved _).bind fun o => ?_
        refine Relaxed.bind (@Exact.toRelaxed _ 0 _ inferInstance) fun flowId => ?_
        exact (flowGetPartition_relaxed _).bind fun _ _ _ _ h => h

theorem finish_unlimited {x : Metered Err Bytes} (hx : Relaxed x) {limit pending : Option ℕ}
    {payload : Bytes} (h : finish pending (x limit 0) = .ok (some payload)) :
    ∃ w, x none 0 = .ok (payload, w) := by
  obtain ⟨w, hw⟩ := finish_eq_some h
  cases limit with
  | none => exact ⟨w, hw⟩
  | some m => exact ⟨w, hx m 0 _ hw⟩

/-!
## The commands of a batch
-/

theorem flowGetReturn_requested {rt : Runtime} {v : Value} {isMeta : Bool} {used w : ℕ}
    (h : flowGetFields.flowGetReturn rt v none used = .ok (isMeta, w)) :
    requestedReturn rt v = some isMeta ∧ isMeta = !v.isNone := by
  unfold flowGetFields.flowGetReturn at h
  by_cases hv : v.isNone
  · rw [if_pos hv] at h
    obtain ⟨rfl, -⟩ := pure_eq_ok h
    simp [requestedReturn, hv]
  · rw [if_neg hv] at h
    simp only [bind_ok_iff, ofExcept_ok_iff, ite_ok_iff, pure_ok_iff, decline_ok_iff, and_false,
      or_false] at h
    obtain ⟨mode, _, ⟨htext, rfl⟩, hmode, rfl, rfl⟩ := h
    simp [requestedReturn, hv, htext, hmode]

theorem flowGetPartition_requested {v : Value} {o : Option Bytes} {used w : ℕ}
    (h : flowGetFields.flowGetPartition v none used = .ok (o, w)) :
    optionalBinaryOf v = some o := by
  unfold flowGetFields.flowGetPartition at h
  split at h
  · next hv =>
    obtain ⟨rfl, -⟩ := pure_eq_ok h
    cases v <;> first | rfl | cases hv
  · simp only [bind_ok_iff, unreservedMaybeBytes_ok_iff, require_ok_iff, pure_ok_iff] at h
    obtain ⟨_, _, ⟨-, hv, rfl⟩, b, _, ⟨rfl, rfl⟩, rfl, rfl⟩ := h
    unfold optionalBinaryOf
    split
    · cases hv
    · rw [hv]
      rfl

theorem flowGetBuilt_requested {rt : Runtime} {command : ProtocolCommand} {used w : ℕ}
    {x : FlowGetItem} (h : flowGetBuilt rt command none used = .ok (x, w)) :
    requestedItem rt (.ok command) = some x ∧ x.isMeta = builtAsksMeta command ∧
      x.partition = builtPartition command := by
  obtain ⟨op, body, lane, flags⟩ := command
  unfold flowGetBuilt at h
  split at h
  · cases h
  cases body with
  | raw b => cases h
  | fields payload =>
    simp only [flowGetFields, bind_ok_iff, guardFields_ok_iff, require_ok_iff, pure_ok_iff,
      unreservedMaybeBytes_ok_iff] at h
    obtain ⟨_, _, -, isMeta, _, hmeta, o, _, ⟨-, ho, -⟩, flowId, _, ⟨rfl, -⟩, partition, _, hp,
      rfl, rfl⟩ := h
    have hreturn := flowGetReturn_requested hmeta
    have hpartition := flowGetPartition_requested hp
    refine ⟨?_, hreturn.2, optionalBinaryOf_eq hpartition⟩
    simp [requestedItem, requestedFields, ho, hpartition, hreturn.1]

theorem each_requested {α : Type} {f : α → Metered Err FlowGetItem} (P : α → FlowGetItem → Prop)
    (hf : ∀ a used w x, f a none used = .ok (x, w) → P a x) {as : List α} {used w : ℕ}
    {items : List FlowGetItem} (h : each f as none used = .ok (items, w)) :
    List.Forall₂ P as items := by
  induction as generalizing used w items with
  | nil =>
    obtain ⟨rfl, -⟩ := pure_eq_ok h
    exact .nil
  | cons a as ih =>
    simp only [each, bind_ok_iff, pure_ok_iff] at h
    obtain ⟨x, v, hx, xs, u, hxs, rfl, rfl⟩ := h
    exact .cons (hf a _ _ _ hx) (ih hxs)

def partitionNames : List String := ["PARTITION", "PARTITION_KEY"]

theorem flowGetOptions_last {rt : Runtime} {options : List Value} {partitionArg : Value}
    {isMeta : Bool} {used w : ℕ} {r : Value × Bool}
    (h : flowGetOptions rt options partitionArg isMeta none used = .ok (r, w)) :
    r.1 = (lastOption rt partitionNames options).getD partitionArg ∧
      r.2 = (isMeta || (lastOption rt ["RETURN"] options).isSome) := by
  fun_induction flowGetOptions rt options partitionArg isMeta with
  | case1 partitionArg isMeta =>
    obtain ⟨rfl, -⟩ := pure_eq_ok h
    simp [lastOption]
  | case2 => cases h
  | case3 option value rest partitionArg isMeta hname ih =>
    obtain ⟨hp, hm⟩ := ih h
    have hin : rt.commandToken option ∈ partitionNames.map lit := by
      simpa [partitionNames] using hname
    have hout : rt.commandToken option ∉ ["RETURN"].map lit := by
      rcases hname with hn | hn <;> rw [hn] <;> decide
    refine ⟨?_, ?_⟩
    · rw [hp, lastOption, if_pos hin]
      cases lastOption rt partitionNames rest <;> rfl
    · rw [hm, lastOption, if_neg hout, Option.or_none]
  | case4 option value rest partitionArg isMeta hname hreturn ih =>
    simp only [bind_ok_iff, ofExcept_ok_iff, ite_ok_iff, decline_ok_iff, and_false,
      or_false] at h
    obtain ⟨mode, _, ⟨-, rfl⟩, -, hrest⟩ := h
    obtain ⟨hp, hm⟩ := ih hrest
    have hout : rt.commandToken option ∉ partitionNames.map lit := by
      simpa [partitionNames] using hname
    refine ⟨?_, ?_⟩
    · rw [hp, lastOption, if_neg hout, Option.or_none]
    · rw [hm, lastOption, if_pos (by simp [hreturn])]
      cases lastOption rt ["RETURN"] rest <;> simp
  | case5 => cases h

/-- The fields the option map gives the options of a `FLOW.GET`. -/
def flowGetField (rt : Runtime) (options : List Value) (p : Payload) (k : String) :
    Option Value :=
  if k = "partition_key" then (lastOption rt partitionNames options).or (Dict.get? p k)
  else if k = "return" ∧ (lastOption rt ["RETURN"] options).isSome then
    some (.str (lit "meta"))
  else Dict.get? p k

theorem optionWalk_pair {rt : Runtime} {idx : ℕ} {p q : Payload} {option value : Value}
    {rest : List Value} {valid : List Bool}
    (h : optionWalk rt true idx 0 p (option::value::rest) valid = .ok q) (field : String)
    (v : Value)
    (hstep : ∀ next, optionStep rt true idx (rt.commandToken option) (value::rest) valid.tail p =
      .ok next → next = (Dict.set p field v, 2)) :
    optionWalk rt true (idx+2) 0 (Dict.set p field v) rest valid.tail.tail = .ok q := by
  rw [optionWalk] at h
  obtain ⟨next, hnext, h⟩ := except_bind_eq_ok h
  rw [hstep next hnext] at h
  exact h

theorem optionStep_partitionKey {rt : Runtime} {idx : ℕ} {option : Str} {rest : List Value}
    {valid : List Bool} {p : Payload} {next : Payload × ℕ} (ho : option = lit "PARTITION_KEY") :
    optionStep rt true idx option rest valid p ≠ .ok next := by
  have hm : mappedField option = none := by
    have hkeys : ∀ e ∈ flowOptionFieldNames, e.1 ≠ "PARTITION_KEY" := by decide +kernel
    rw [mappedField, Option.map_eq_none_iff, List.find?_eq_none]
    exact fun e he => by simpa [ho, lit_inj] using hkeys e he
  simp only [optionStep, stateOption, collectOption, ho, lit_inj, String.reduceEq, if_false]
  rw [fieldOption, ← ho, hm]
  exact fun h => by cases h

theorem optionStep_return {rt : Runtime} {idx : ℕ} {value : Value} {rest : List Value}
    {valid : List Bool} {p : Payload} {next : Payload × ℕ} {mode : Str}
    (htext : rt.text value = .ok mode) (hmode : rt.lowerText mode = lit "meta")
    (h : optionStep rt true idx (lit "RETURN") (value::rest) valid p = .ok next) :
    next = (Dict.set p "return" (.str (lit "meta")), 2) := by
  simp only [optionStep, stateOption, lit_inj, String.reduceEq, if_false, if_true] at h
  obtain ⟨found, hfound, h⟩ := except_bind_eq_ok h
  have hv : value = found := by simpa [requireNext] using hfound
  subst hv
  rw [htext, except_ok_bind, hmode] at h
  cases h
  rfl

/-- The option map reads an accepted option list as the compact walker does. -/
theorem optionWalk_fields {rt : Runtime} {options : List Value} {partitionArg : Value}
    {isMeta : Bool} {used w : ℕ} {r : Value × Bool}
    (h : flowGetOptions rt options partitionArg isMeta none used = .ok (r, w)) {idx : ℕ}
    {valid : List Bool} {p q : Payload} (hwalk : optionWalk rt true idx 0 p options valid = .ok q)
    (hp : (p.map Prod.fst).Nodup) :
    (q.map Prod.fst).Nodup ∧ ∀ k, Dict.get? q k = flowGetField rt options p k := by
  fun_induction flowGetOptions rt options partitionArg isMeta generalizing idx valid p with
  | case1 partitionArg isMeta =>
    simp only [optionWalk] at hwalk
    cases hwalk
    refine ⟨hp, fun k => ?_⟩
    simp [flowGetField, lastOption]
  | case2 => cases h
  | case3 option value rest partitionArg isMeta hname ih =>
    have hpart : rt.commandToken option = lit "PARTITION" := by
      rcases hname with hn | hn
      · exact hn
      · rw [optionWalk] at hwalk
        obtain ⟨next, hnext, -⟩ := except_bind_eq_ok hwalk
        exact absurd hnext (optionStep_partitionKey hn)
    have hrest := optionWalk_pair hwalk "partition_key" value (by
      intro next hnext
      rw [hpart, optionStep_partition] at hnext
      obtain ⟨v, more, he, hn⟩ := fieldOption_partition hnext
      cases he
      exact hn)
    obtain ⟨hq, hget⟩ := ih h hrest (Dict.nodup_set _ _ _ hp)
    refine ⟨hq, fun k => ?_⟩
    have hlast : lastOption rt partitionNames (option::value::rest) =
        (lastOption rt partitionNames rest).or (some value) := by
      rw [lastOption, if_pos (by simp [partitionNames, hpart])]
    have hreturn : lastOption rt ["RETURN"] (option::value::rest) =
        lastOption rt ["RETURN"] rest := by
      rw [lastOption, if_neg (by rw [hpart]; decide), Option.or_none]
    rw [hget k, flowGetField, flowGetField, hlast, hreturn, Dict.get?_set]
    by_cases hk : k = "partition_key"
    · subst hk
      simp
    · rw [if_neg hk, if_neg hk, if_neg (Ne.symm hk)]
  | case4 option value rest partitionArg isMeta hname hreturn ih =>
    simp only [bind_ok_iff, ofExcept_ok_iff, ite_ok_iff, decline_ok_iff, and_false,
      or_false] at h
    obtain ⟨mode, _, ⟨htext, rfl⟩, hmode, h⟩ := h
    have hrest := optionWalk_pair hwalk "return" (.str (lit "meta")) (by
      intro next hnext
      rw [hreturn] at hnext
      exact optionStep_return htext hmode hnext)
    obtain ⟨hq, hget⟩ := ih h hrest (Dict.nodup_set _ _ _ hp)
    refine ⟨hq, fun k => ?_⟩
    have hlast : lastOption rt partitionNames (option::value::rest) =
        lastOption rt partitionNames rest := by
      rw [lastOption, if_neg (by rw [hreturn]; decide), Option.or_none]
    have hsome : (lastOption rt ["RETURN"] (option::value::rest)).isSome = true := by
      rw [lastOption, if_pos (by simp [hreturn]), Option.isSome_or]
      simp
    rw [hget k, flowGetField, flowGetField, hlast, hsome, Dict.get?_set]
    by_cases hk : k = "return"
    · subst hk
      simp
    · by_cases hp : k = "partition_key"
      · subst hp
        simp
      · simp [hk, hp, Ne.symm hk]
  | case5 => cases h

theorem flowGetCommand_parts {rt : Runtime} {command : Command} {used w : ℕ}
    {x : FlowGetItem} (h : flowGetCommand rt command none used = .ok (x, w)) :
    ∃ raw idArg options partitionArg u v, command = raw::idArg::options ∧
      binaryOf idArg = some x.id ∧ optionalBinaryOf partitionArg = some x.partition ∧
      flowGetOptions rt options .none false none u = .ok ((partitionArg, x.isMeta), v) := by
  unfold flowGetCommand at h
  split at h
  · next raw idArg options =>
    split_ifs at h
    · simp only [bind_ok_iff, boundedMaybeBytes_ok_iff, boundedOptionalBytes_ok_iff,
        require_ok_iff, pure_ok_iff] at h
      obtain ⟨_, _, ⟨-, hid, rfl⟩, id, _, ⟨rfl, rfl⟩, ⟨partitionArg, isMeta⟩, v, hoptions, _, _,
        ⟨-, hpart, -⟩, partition, _, ⟨rfl, -⟩, rfl, -⟩ := h
      exact ⟨raw, idArg, options, partitionArg, _, v, rfl, hid, hpart, hoptions⟩
    · cases h
  · cases h

/-- The request of a command on its own, or the error of the generic builder. -/
def flowGetRequest (rt : Runtime) (policy : CompactEncodingPolicy)
    (rest exec : String → List Value → Except Err ProtocolCommand) (command : Command) :
    Except Err ProtocolCommand :=
  buildFlowProtocolCommand rt policy rest exec "FLOW.GET" command.tail

theorem flowPayload_get (rt : Runtime) (idArg : Value) (options : List Value) :
    flowPayload rt "FLOW.GET" (idArg::options) =
      some ((optionMap rt true options).map fun fields =>
        Dict.update [("id", idArg)] fields) := by
  have hfind : flowShapes.find? (fun shape => shape.name = "FLOW.GET") =
      some ⟨"FLOW.GET", ["id"], true, []⟩ := rfl
  rw [flowPayload, if_neg (by decide), hfind, Option.map_some, Option.some.injEq]
  cases hq : optionMap rt true options with
  | error e =>
    simp only [shapedPayload, List.length_singleton, List.drop_succ_cons, List.drop_zero, hq]
    rfl
  | ok q =>
    simp only [shapedPayload, List.length_singleton, List.drop_succ_cons, List.drop_zero, hq]
    rfl

theorem lowerText_meta (rt : Runtime) : rt.lowerText (lit "meta") = lit "meta" := by
  rw [Runtime.lowerText, if_pos (by decide)]
  decide

/-- The fields of the built request ask for the item of the command. -/
theorem requestedFields_update {rt : Runtime} {idArg partitionArg : Value}
    {options : List Value} {x : FlowGetItem} {fields : Payload} {used w : ℕ}
    (hid : binaryOf idArg = some x.id) (hpart : optionalBinaryOf partitionArg = some x.partition)
    (hoptions : flowGetOptions rt options .none false none used =
      .ok ((partitionArg, x.isMeta), w))
    (hfields : ∀ k, Dict.get? fields k =
      (flowGetField rt options [] k).or (Dict.get? [("id", idArg)] k)) :
    requestedFields rt fields = some x := by
  obtain ⟨hp, hmeta⟩ := flowGetOptions_last hoptions
  have hids : fields.get "id" = idArg := by
    simp [Payload.get, hfields, flowGetField, Dict.get?]
  have hparts : fields.get "partition_key" = partitionArg := by
    rw [show partitionArg = _ from hp]
    simp [Payload.get, hfields, flowGetField, Dict.get?]
  have hreturns : requestedReturn rt (fields.get "return") = some x.isMeta := by
    rw [show x.isMeta = _ from hmeta]
    cases hl : (lastOption rt ["RETURN"] options).isSome
    · simp [Payload.get, hfields, flowGetField, Dict.get?, hl, requestedReturn, Value.isNone]
    · simp [Payload.get, hfields, flowGetField, hl, requestedReturn, Value.isNone, Runtime.text,
        Runtime.str, lowerText_meta]
  simp [requestedFields, hids, hid, hparts, hpart, hreturns]

/-- A request the generic builder makes for an accepted command asks for its item. -/
theorem flowGetRequest_requested {rt : Runtime} {policy : CompactEncodingPolicy}
    {rest exec : String → List Value → Except Err ProtocolCommand} {command : Command}
    {used w : ℕ} {x : FlowGetItem} {built : ProtocolCommand}
    (hx : flowGetCommand rt command none used = .ok (x, w))
    (h : flowGetRequest rt policy rest exec command = .ok built) :
    requestedItem rt (.ok built) = some x := by
  obtain ⟨raw, idArg, options, partitionArg, u, v, rfl, hid, hpart, hoptions⟩ :=
    flowGetCommand_parts hx
  unfold flowGetRequest buildFlowProtocolCommand buildNativeFlowProtocolCommand at h
  rw [List.tail_cons, flowPayload_get] at h
  obtain ⟨native, hnative, h⟩ := except_bind_eq_ok h
  cases hq : optionMap rt true options with
  | error e =>
    rw [hq] at hnative
    cases hnative
  | ok q =>
    rw [hq] at hnative
    change (if "FLOW.GET" = "FLOW.CLAIM_DUE" then
      claimDueCommand policy (Dict.update [("id", idArg)] q)
      else .ok ⟨opcode "FLOW.GET", .fields (Dict.update [("id", idArg)] q), 1, 0⟩) =
        .ok native at hnative
    rw [if_neg (by decide)] at hnative
    cases hnative
    obtain ⟨valid, -, hwalk⟩ := except_bind_eq_ok hq
    obtain ⟨hnodup, hget⟩ := optionWalk_fields hoptions hwalk List.nodup_nil
    have hfields : ∀ k, Dict.get? (Dict.update [("id", idArg)] q) k =
        (flowGetField rt options [] k).or (Dict.get? [("id", idArg)] k) := fun k => by
      rw [Dict.get?_update _ _ _ hnodup, hget k]
    simp only [Dict.contains, hfields] at h
    simp [flowGetField, Dict.get?] at h
    subst h
    exact requestedFields_update hid hpart hoptions hfields

theorem rawItem_asks {rt : Runtime} {command : Command} {used w : ℕ} {x : FlowGetItem}
    (h : flowGetCommand rt command none used = .ok (x, w)) :
    x.isMeta = rawAsksMeta rt command ∧ x.partition = rawPartition rt command := by
  obtain ⟨raw, idArg, options, partitionArg, u, v, rfl, -, hpart, hoptions⟩ :=
    flowGetCommand_parts h
  obtain ⟨hp, hmeta⟩ := flowGetOptions_last hoptions
  refine ⟨by simpa [rawAsksMeta, rawOptions] using hmeta, ?_⟩
  rw [optionalBinaryOf_eq hpart, show partitionArg = _ from hp, rawPartition, rawOptions]
  cases hl : lastOption rt partitionNames options <;> rw [partitionNames] at hl <;>
    simp [hl, binaryOf]

theorem map_of_forall₂ {α β : Type} {f : α → β} {g : FlowGetItem → β} {commands : List α}
    {items : List FlowGetItem} (h : List.Forall₂ (fun c x => g x = f c) commands items) :
    items.map g = commands.map f := by
  induction h with
  | nil => rfl
  | cons hx _ ih => rw [List.map_cons, List.map_cons, hx, ih]

theorem uniform_iff_map {α : Type} (asks : α → Bool) (commands : List α) :
    UniformReturn asks commands ↔
      (∀ b ∈ commands.map asks, b = true) ∨ ∀ b ∈ commands.map asks, b = false := by
  rw [UniformReturn, List.forall_mem_map, List.forall_mem_map]

/-- The items of a batch ask what its commands ask. -/
theorem condition_of_items {α : Type} {asks : α → Bool} {part : α → Option Bytes}
    {commands : List α} {items : List FlowGetItem}
    (h : List.Forall₂ (fun c x => x.isMeta = asks c ∧ x.partition = part c) commands items) :
    (UniformReturn FlowGetItem.isMeta items ∧ ∀ x ∈ items, ¬ readsAsAbsent x.partition) ↔
      UniformReturn asks commands ∧ ∀ c ∈ commands, ¬ readsAsAbsent (part c) := by
  have hmeta := map_of_forall₂ (h.imp fun _ _ hx => hx.1)
  have hpart := map_of_forall₂ (h.imp fun _ _ hx => hx.2)
  have hparts : (∀ o ∈ items.map FlowGetItem.partition, ¬ readsAsAbsent o) ↔
      ∀ o ∈ commands.map part, ¬ readsAsAbsent o := by rw [hpart]
  rw [List.forall_mem_map, List.forall_mem_map] at hparts
  rw [uniform_iff_map, hmeta, ← uniform_iff_map, hparts]

theorem built_faithful_iff {rt : Runtime} {valuesOnly : Bool} {commands : List ProtocolCommand}
    {payload : Bytes} {w : ℕ}
    (h : compactFlowGetPipelinePayload rt valuesOnly commands none 0 = .ok (payload, w)) :
    Faithful rt payload (commands.map .ok) ↔
      UniformReturn builtAsksMeta commands ∧
        ∀ c ∈ commands, ¬ readsAsAbsent (builtPartition c) := by
  simp only [compactFlowGetPipelinePayload, bind_ok_iff] at h
  obtain ⟨items, u, hitems, hbody⟩ := h
  have hall : List.Forall₂ (fun c x => requestedItem rt (.ok c) = some x ∧
      x.isMeta = builtAsksMeta c ∧ x.partition = builtPartition c) commands items :=
    each_requested _ (fun _ _ _ _ hx => by exact flowGetBuilt_requested hx) hitems
  have hrequests : (commands.map Except.ok).map (requestedItem rt) = items.map some := by
    rw [List.map_map]
    exact (map_of_forall₂ (hall.imp fun _ _ hx => hx.1.symm)).symm
  rw [parse_eq_iff_faithful hrequests, parse_flowGetBody hbody]
  exact condition_of_items (hall.imp fun _ _ hx => hx.2)

theorem raw_faithful_iff {rt : Runtime} {policy : CompactEncodingPolicy}
    {rest exec : String → List Value → Except Err ProtocolCommand} {valuesOnly : Bool}
    {commands : List Command} {payload : Bytes} {w : ℕ}
    (h : compactFlowGetPipelinePayloadFromRaw rt valuesOnly commands none 0 =
      .ok (payload, w)) :
    Faithful rt payload (commands.map (flowGetRequest rt policy rest exec)) ↔
      (UniformReturn (rawAsksMeta rt) commands ∧
        ∀ c ∈ commands, ¬ readsAsAbsent (rawPartition rt c)) ∧
      ∀ c ∈ commands, ∃ built, flowGetRequest rt policy rest exec c = .ok built := by
  simp only [compactFlowGetPipelinePayloadFromRaw, bind_ok_iff] at h
  obtain ⟨_, _, -, items, _, hitems, _, _, -, hbody⟩ := h
  have hasks : List.Forall₂ (fun c x => x.isMeta = rawAsksMeta rt c ∧
      x.partition = rawPartition rt c) commands items :=
    each_requested _ (fun _ _ _ _ hx => by exact rawItem_asks hx) hitems
  by_cases hbuilt : ∀ c ∈ commands, ∃ built, flowGetRequest rt policy rest exec c = .ok built
  · have hall : List.Forall₂ (fun c x => ∀ built, flowGetRequest rt policy rest exec c =
        .ok built → requestedItem rt (.ok built) = some x) commands items :=
      each_requested _ (fun _ _ _ _ hx _ hb => by exact flowGetRequest_requested hx hb) hitems
    have hrequests : (commands.map (flowGetRequest rt policy rest exec)).map (requestedItem rt) =
        items.map some := by
      rw [List.map_map]
      clear hitems hbody hasks
      induction hall with
      | nil => rfl
      | cons hx _ ih =>
        rw [List.forall_mem_cons] at hbuilt
        obtain ⟨built, hb⟩ := hbuilt.1
        rw [List.map_cons, List.map_cons, ih hbuilt.2, Function.comp_apply, hb, hx built hb]
    rw [parse_eq_iff_faithful hrequests, parse_flowGetBody hbody, condition_of_items hasks]
    exact (and_iff_left hbuilt).symm
  · refine iff_of_false (fun hf => hbuilt fun c hc => ?_) fun hc => hbuilt hc.2
    obtain ⟨xs, -, hxs⟩ := Option.map_eq_some_iff.mp hf
    have hmem : requestedItem rt (flowGetRequest rt policy rest exec c) ∈
        xs.map some := by
      rw [hxs]
      exact List.mem_map_of_mem (List.mem_map_of_mem hc)
    obtain ⟨x, -, hx⟩ := List.mem_map.mp hmem
    cases hr : flowGetRequest rt policy rest exec c with
    | ok built => exact ⟨built, rfl⟩
    | error e =>
      rw [hr] at hx
      cases hx

/-- A compact `FLOW.GET` batch is faithful exactly when its commands agree on the return
mode, no partition has the length of the null sentinel, and, for raw commands, the
generic builder takes each of them. -/
theorem flow_get_pipelines_faithful_iff (rt : Runtime) (valuesOnly : Bool)
    (limit pending : Option ℕ) (payload : Bytes) :
    (∀ commands : List ProtocolCommand,
      finish pending (compactFlowGetPipelinePayload rt valuesOnly commands limit 0) =
        .ok (some payload) →
      (Faithful rt payload (commands.map .ok) ↔
        UniformReturn builtAsksMeta commands ∧
          ∀ c ∈ commands, ¬ readsAsAbsent (builtPartition c))) ∧
    ∀ (policy : CompactEncodingPolicy)
      (rest exec : String → List Value → Except Err ProtocolCommand) (commands : List Command),
      finish pending (compactFlowGetPipelinePayloadFromRaw rt valuesOnly commands limit 0) =
        .ok (some payload) →
      (Faithful rt payload (commands.map (flowGetRequest rt policy rest exec)) ↔
        (UniformReturn (rawAsksMeta rt) commands ∧
          ∀ c ∈ commands, ¬ readsAsAbsent (rawPartition rt c)) ∧
        ∀ c ∈ commands, ∃ built, flowGetRequest rt policy rest exec c = .ok built) := by
  refine ⟨fun commands h => ?_, fun policy rest exec commands h => ?_⟩
  · have hrelaxed : Relaxed (compactFlowGetPipelinePayload rt valuesOnly commands) :=
      (Relaxed.each (flowGetBuilt_relaxed rt) commands).bind fun items =>
        Exact.toRelaxed (flowGetBody_exact 0 valuesOnly items)
    obtain ⟨w, hw⟩ := finish_unlimited hrelaxed h
    exact built_faithful_iff hw
  · obtain ⟨w, hw⟩ := finish_unlimited (Exact.toRelaxed (flowGet_exact rt valuesOnly commands)) h
    exact raw_faithful_iff hw

/-- A command that asks for meta, and one that asks for the record. -/
def mixedReturns : List Command :=
  [[.str (lit "FLOW.GET"), .str (lit "a"), .str (lit "RETURN"), .str (lit "META")],
    [.str (lit "FLOW.GET"), .str (lit "b")]]

def mixedPayload : Bytes :=
  [0x94, 17, 0, 0, 0, 2, 0, 0, 0, 1, 97, 255, 255, 255, 255, 0, 0, 0, 1, 98, 255, 255, 255, 255]

def noBuilder : String → List Value → Except Err ProtocolCommand := fun _ _ => .error .typeError

set_option maxRecDepth 4000 in
theorem mixed_payload :
    compactFlowGetPipelinePayloadFromRaw Runtime.ascii false mixedReturns none 0 =
      .ok (mixedPayload, 24) := by rfl

theorem mixed_returns_unfaithful :
    finish none (compactFlowGetPipelinePayloadFromRaw Runtime.ascii false mixedReturns none 0) =
        .ok (some mixedPayload) ∧
      ¬ Faithful Runtime.ascii mixedPayload
        (mixedReturns.map (flowGetRequest Runtime.ascii unboundedPolicy noBuilder noBuilder)) := by
  refine ⟨by rw [mixed_payload]; rfl, fun hf => ?_⟩
  obtain ⟨⟨hreturn | hreturn, -⟩, -⟩ := (raw_faithful_iff mixed_payload).mp hf
  · exact absurd (hreturn _ (List.mem_cons_of_mem _ List.mem_cons_self)) (by decide)
  · exact absurd (hreturn _ List.mem_cons_self) (by decide)

def plainReturn : List Command := [[.str (lit "FLOW.GET"), .str (lit "b")]]

theorem flow_get_pipelines_faithful_iff_plain :
    Faithful Runtime.ascii [0x94, 9, 0, 0, 0, 1, 0, 0, 0, 1, 98]
      (plainReturn.map (flowGetRequest Runtime.ascii unboundedPolicy noBuilder noBuilder)) := by
  refine ((flow_get_pipelines_faithful_iff Runtime.ascii false none none _).2 unboundedPolicy
    noBuilder noBuilder plainReturn (by rfl)).mpr ⟨⟨.inr (by decide), ?_⟩, ?_⟩
  · rw [plainReturn, List.forall_mem_singleton]
    rintro ⟨b, hb, -⟩
    cases hb
  · rw [plainReturn, List.forall_mem_singleton]
    exact ⟨_, rfl⟩

end FerricStore.RawPipelines
