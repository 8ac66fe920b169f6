import FerricStore.CollectionCounts
import FerricStore.CompactBudgetExact

/-!
# The count in a compact body

The count of a compact body stands behind the binaries in front of it. A reader that
steps over them finds it as long as none of them has the length that stands for null.
-/

set_option autoImplicit false

namespace FerricStore.CollectionCounts
open Text BasicCommands FlowOptions FlowCommands FlowManyPayloads CompactBudget FlowCodec Cursor
open RawPipelines Metered ValueCodec

/-- The opcodes the counts tell apart, looked up once. -/
theorem counted_opcodes :
    opcode "PIPELINE" = 0x000E ∧ opcode "COMMAND_EXEC" = 0x0100 ∧ opcode "MGET" = 0x0104 ∧
      opcode "FLOW.VALUE.MGET" = 0x020C ∧ opcode "FLOW.CREATE_MANY" = 0x020F ∧
      opcode "FLOW.COMPLETE_MANY" = 0x0210 ∧ opcode "FLOW.TRANSITION_MANY" = 0x0211 ∧
      opcode "FLOW.RETRY_MANY" = 0x0212 ∧ opcode "FLOW.FAIL_MANY" = 0x0213 ∧
      opcode "FLOW.CANCEL_MANY" = 0x0214 := by
  decide +kernel

theorem manyOpcodes_eq :
    manyOpcodes = [0x020F, 0x0210, 0x0211, 0x0212, 0x0213, 0x0214] := by
  simp [manyOpcodes, Bulk.name, counted_opcodes]

theorem terminalOpcodes_eq : terminalOpcodes = [0x0210, 0x0212, 0x0213, 0x0214] := by
  simp [terminalOpcodes, Bulk.name, counted_opcodes]

section Reading

variable {payload rest : Bytes} {offset : ℕ}

theorem advance_i64 {n : ℤ} (h : Suffix payload offset (i64 n++rest)) :
    Suffix payload (offset+8) rest := by
  simpa using h.advance

theorem advance_byte {b : UInt8} (h : Suffix payload offset (b::rest)) :
    Suffix payload (offset+1) rest :=
  h.advance (x := [b])

theorem u32At_eq {n : ℕ} (h : Suffix payload offset (u32 n++rest)) (hn : n ≤ u32Max) :
    u32At payload offset = n := by
  have hs := h.slice_eq
  rw [u32_length] at hs
  rw [u32At, hs, u32, BigEndian.decode_encode]
  unfold u32Max at hn
  omega

theorem available_u32 {n : ℕ} (h : Suffix payload offset (u32 n++rest)) :
    ¬payload.length < offset+4 := by
  have ha := h.available
  rw [u32_length] at ha
  omega

theorem readCount_eq {n : ℕ} (h : Suffix payload offset (u32 n++rest)) (hn : n ≤ u32Max) :
    readCount payload offset = some n := by
  rw [readCount, if_neg (available_u32 h), u32At_eq h hn]

theorem skipBinary_binary {b : Bytes} (h : Suffix payload offset (binaryWire b++rest))
    (hb : b.length < nullU32) :
    skipBinary payload offset = some (offset+4+b.length) ∧
      Suffix payload (offset+4+b.length) rest := by
  rw [binaryWire, List.append_assoc] at h
  have hle : b.length ≤ u32Max := by
    unfold nullU32 at hb
    unfold u32Max
    omega
  have hnext := h.advance
  rw [u32_length] at hnext
  rw [skipBinary, if_neg (available_u32 h), u32At_eq h hle, if_neg (by omega),
    if_pos hnext.available]
  exact ⟨rfl, hnext.advance⟩

theorem skipBinary_optional {o : Option Bytes} (h : Suffix payload offset (optionalWire o++rest))
    (ho : Short o.toList) :
    ∃ next, skipBinary payload offset = some next ∧ Suffix payload next rest := by
  cases o with
  | none =>
    have hnext := h.advance
    rw [optionalWire_length] at hnext
    rw [skipBinary, if_neg (available_u32 h), u32At_eq h (by decide), if_pos rfl]
    exact ⟨_, rfl, hnext⟩
  | some b => exact ⟨_, skipBinary_binary h (ho b (by simp))⟩

end Reading

section Wires

/-- The marker of a terminal request, one binary, some fixed fields and the count. -/
theorem terminal_count (code : ℕ) {n : ℕ} (kind : UInt8) (partition : Option Bytes)
    (fixed rest : Bytes) (hs : Short partition.toList) (hn : n ≤ u32Max)
    (hcode : code ∈ terminalOpcodes) (hkind : kind ∈ terminalMarkers)
    (hfixed : fixed.length = if code = opcode "FLOW.RETRY_MANY" then 17 else 9) :
    expectedManyItems code (kind::(optionalWire partition++(fixed++(u32 n++rest)))) = some n := by
  have hcreate : code ≠ opcode "FLOW.CREATE_MANY" := by
    rintro rfl
    simp [counted_opcodes, terminalOpcodes_eq] at hcode
  obtain ⟨next, hskip, hnext⟩ := skipBinary_optional (advance_byte (Suffix.start
    (kind::(optionalWire partition++(fixed++(u32 n++rest)))))) hs
  have hcount := readCount_eq hnext.advance hn
  rw [hfixed] at hcount
  rw [expectedManyItems, if_neg fun h => hcreate h.1,
    if_pos ⟨hcode, List.mem_map_of_mem hkind⟩, terminalCount, hskip]
  exact hcount

theorem cancelMany_count (c : CancelMany) (hs : Short c.partition.toList)
    (hn : c.items.length ≤ u32Max) :
    expectedManyItems (opcode "FLOW.CANCEL_MANY") c.wire = some c.items.length := by
  have hkind : (if c.okOnSuccess then compactFlowCancelManyOkRequest
      else compactFlowCancelManyRequest) ∈ terminalMarkers := by
    cases c.okOnSuccess <;> decide
  have hfixed : (i64 c.nowMs++[triMarker c.independent]).length =
      if opcode "FLOW.CANCEL_MANY" = opcode "FLOW.RETRY_MANY" then 17 else 9 := by
    rw [if_neg (by simp [counted_opcodes])]
    simp
  have hcount := terminal_count (opcode "FLOW.CANCEL_MANY") _ c.partition
    (i64 c.nowMs++[triMarker c.independent]) (c.items.flatMap CancelItem.wire) hs hn
    (by simp [counted_opcodes, terminalOpcodes_eq]) hkind hfixed
  simpa [CancelMany.wire] using hcount

theorem claimedMany_count (code : ℕ) {kind okKind : UInt8} (c : ClaimedMany)
    (hs : Short c.partition.toList) (hn : c.items.length ≤ u32Max)
    (hcode : code ∈ terminalOpcodes) (hkind : kind ∈ terminalMarkers)
    (hok : okKind ∈ terminalMarkers)
    (hdelayed : c.runAtMs.isSome = decide (code = opcode "FLOW.RETRY_MANY")) :
    expectedManyItems code (c.wire kind okKind) = some c.items.length := by
  have hmarker : (if c.okOnSuccess then okKind else kind) ∈ terminalMarkers := by
    split_ifs
    · exact hok
    · exact hkind
  have hfixed : (i64 c.nowMs++((c.runAtMs.elim [] i64)++[c.independent.marker])).length =
      if code = opcode "FLOW.RETRY_MANY" then 17 else 9 := by
    cases hr : c.runAtMs with
    | none =>
      rw [hr] at hdelayed
      rw [if_neg (of_decide_eq_false hdelayed.symm)]
      simp
    | some n =>
      rw [hr] at hdelayed
      rw [if_pos (of_decide_eq_true hdelayed.symm)]
      simp
  have hcount := terminal_count code _ c.partition
    (i64 c.nowMs++((c.runAtMs.elim [] i64)++[c.independent.marker]))
    (c.items.flatMap ClaimedItem.wire) hs hn hcode hmarker hfixed
  simpa [ClaimedMany.wire] using hcount

theorem transitionMany_count (c : TransitionMany)
    (hs : Short (c.fromState::c.toState::c.partition.toList)) (hn : c.items.length ≤ u32Max) :
    expectedManyItems (opcode "FLOW.TRANSITION_MANY") c.wire = some c.items.length := by
  simp only [short_cons] at hs
  have hstart := advance_byte (Suffix.start c.wire)
  obtain ⟨hfirst, hfrom⟩ := skipBinary_binary hstart hs.1
  obtain ⟨hsecond, hto⟩ := skipBinary_binary hfrom hs.2.1
  obtain ⟨next, hthird, hpartition⟩ := skipBinary_optional hto hs.2.2
  have hcount := readCount_eq (advance_byte (advance_i64 (advance_i64 hpartition))) hn
  have hkind : c.wire.head? ∈ transitionMarkers.map some := by
    rw [TransitionMany.wire, List.head?_cons]
    cases c.okOnSuccess <;> decide
  rw [expectedManyItems, if_neg fun h => absurd h.1 (by simp [counted_opcodes]),
    if_neg fun h => absurd h.1 (by simp [counted_opcodes, terminalOpcodes_eq]),
    if_pos ⟨rfl, hkind⟩, transitionCount]
  simp only [Nat.zero_add] at hfirst hsecond hthird
  simp only [hfirst, hsecond, hthird, Option.bind_eq_bind, Option.bind_some]
  exact hcount

theorem mixed_no_partition {c : CreateMany} (h : c.mixed = true) : c.partition = none := by
  simp only [CreateMany.mixed, Bool.and_eq_true, Option.isNone_iff_eq_none] at h
  exact h.1

theorem createManyKind_partition {mixed : Bool} {partition : Option Bytes}
    (h : mixed = true → partition = none) :
    createManyKind mixed partition = compactFlowCreateManyPartitionRequest ↔
      partition.isSome = true := by
  cases mixed with
  | true =>
    rw [h rfl]
    decide
  | false =>
    cases partition
    · decide
    · exact iff_of_true rfl rfl

theorem skipCreatePartition_eq {c : CreateMany} {offset : ℕ} {rest : Bytes}
    (h : Suffix c.wire offset ((c.partition.elim [] binaryWire)++rest))
    (hs : Short c.partition.toList) :
    ∃ next, skipCreatePartition c.wire offset = some next ∧ Suffix c.wire next rest := by
  have hhead : c.wire.head? = some (createManyKind c.mixed c.partition) := rfl
  have hkind := createManyKind_partition fun hm => mixed_no_partition (c := c) hm
  simp only [skipCreatePartition, hhead, Option.some.injEq, hkind]
  cases hp : c.partition with
  | none =>
    rw [hp] at h
    exact ⟨offset, rfl, h⟩
  | some b =>
    rw [hp] at h hs
    exact ⟨_, skipBinary_binary h (hs b (by simp))⟩

theorem createMany_count (c : CreateMany)
    (hs : Short (c.type::c.state::c.partition.toList)) (hn : c.items.length ≤ u32Max) :
    expectedManyItems (opcode "FLOW.CREATE_MANY") c.wire = some c.items.length := by
  simp only [short_cons] at hs
  have hstart := advance_byte (Suffix.start c.wire)
  obtain ⟨hfirst, htype⟩ := skipBinary_binary hstart hs.1
  obtain ⟨hsecond, hstate⟩ := skipBinary_binary htype hs.2.1
  obtain ⟨next, hthird, hpartition⟩ := skipCreatePartition_eq hstate hs.2.2
  have hcount := readCount_eq
    (advance_byte (advance_byte (advance_i64 (advance_i64 hpartition)))) hn
  have hkind : c.wire.head? ∈ createManyMarkers.map some := by
    rw [CreateMany.wire, List.head?_cons]
    apply List.mem_map_of_mem
    unfold createManyKind
    split_ifs <;> decide
  rw [expectedManyItems, if_pos ⟨rfl, hkind⟩, createManyCount]
  simp only [Nat.zero_add] at hfirst hsecond hthird
  simp only [hfirst, hsecond, hthird, Option.bind_eq_bind, Option.bind_some]
  exact hcount

/-- The six bytes of a pipeline header end in its count. -/
theorem header_count {mode n : ℕ} {rest : Bytes} (hn : n ≤ u32Max) :
    expectedPayloadCollectionItems (opcode "MGET")
      (.raw (compactPipelineRequest::UInt8.ofNat mode::(u32 n++rest))) = some n := by
  have hcount := u32At_eq (advance_byte (advance_byte (Suffix.start
    (compactPipelineRequest::UInt8.ofNat mode::(u32 n++rest))))) hn
  have hlength : 6 ≤ (compactPipelineRequest::UInt8.ofNat mode::(u32 n++rest)).length := by
    simp
  rw [expectedPayloadCollectionItems, if_pos ⟨hlength, rfl, .inr rfl⟩]
  exact congrArg some hcount

theorem valueMget_count (c : ValueMget) (hn : c.refs.length ≤ u32Max) :
    expectedPayloadCollectionItems (opcode "FLOW.VALUE.MGET") (.raw c.wire) =
      some c.refs.length := by
  have hcount := u32At_eq (advance_i64 (advance_byte (Suffix.start c.wire))) hn
  have hlength : 13 ≤ c.wire.length := by
    simp [ValueMget.wire]
    omega
  have hcode : ¬(opcode "FLOW.VALUE.MGET" = opcode "PIPELINE" ∨
      opcode "FLOW.VALUE.MGET" = opcode "MGET") := by simp [counted_opcodes]
  rw [expectedPayloadCollectionItems, if_neg fun h => hcode h.2.2, if_pos ⟨rfl, hlength, rfl⟩]
  exact congrArg some hcount

end Wires

section Builder

variable {rt : Runtime} {policy : CompactEncodingPolicy}

/-- The binaries in front of the count of a compact body. -/
def leading (fields : Payload) : Bulk → List Bytes
  | .createMany => binaryField (fields.get "type")::binaryField (fields.get "state")::
      (optionalField (fields.get "partition_key")).toList
  | .transitionMany => binaryField (fields.get "from_state")::
      binaryField (fields.get "to_state")::(optionalField (fields.get "partition_key")).toList
  | .completeMany | .retryMany | .failMany | .cancelMany =>
      (optionalField (fields.get "partition_key")).toList
  | .mget | .valueMget => []

theorem manyItems_raw {code : ℕ} {b : Bytes} (hcode : code ∈ manyOpcodes) :
    expectedPayloadCollectionItems code (.raw b) = expectedManyItems code b := by
  have hother : ¬(code = opcode "PIPELINE" ∨ code = opcode "MGET") ∧
      code ≠ opcode "FLOW.VALUE.MGET" := by
    rw [manyOpcodes_eq] at hcode
    simp only [List.mem_cons, List.not_mem_nil, or_false] at hcode
    simp only [counted_opcodes]
    omega
  rw [expectedPayloadCollectionItems, if_neg fun h => hother.1 h.2.2,
    if_neg fun h => hother.2 h.1]

theorem many_opcode {bulk : Bulk} (h : bulk ≠ .mget ∧ bulk ≠ .valueMget) :
    opcode bulk.name ∈ manyOpcodes := by
  cases bulk with
  | mget => exact absurd rfl h.1
  | valueMget => exact absurd rfl h.2
  | _ => simp [Bulk.name, counted_opcodes, manyOpcodes_eq]

theorem mget_unlimited {args : List Value} {b : Bytes}
    (h : runPolicy policy (compactBinarySequence args 2 args.length) = .ok (some b)) :
    ∃ w, compactBinarySequence args 2 args.length none 0 = .ok (b, w) := by
  unfold runPolicy at h
  split_ifs at h
  · obtain ⟨w, hw⟩ := finish_eq_some h
    exact ⟨w, (binarySequence_exact args 2 args.length).unlimited hw⟩
  · cases h

theorem mget_count {args : List Value} {b : Bytes} {w : ℕ}
    (h : compactBinarySequence args 2 args.length none 0 = .ok (b, w)) :
    expectedPayloadCollectionItems (opcode "MGET") (.raw b) = some args.length := by
  simp only [compactBinarySequence, bind_ok_iff, packPipelineHeader_ok_iff, reserve_ok_iff,
    pure_ok_iff] at h
  obtain ⟨_, _, ⟨⟨-, hn⟩, rfl, rfl⟩, _, _, rfl, parts, _, -, rfl, rfl⟩ := h
  exact header_count hn

/-- The items of a request as a list, and their number as its content has it. -/
theorem content_length {α : Type} {f : Value → α} {v : Value} {items : List Value}
    (h : v = .list items) : ((listField v).map f).length = items.length := by
  rw [List.length_map, h]
  rfl

theorem compact_count {bulk : Bulk} {fields : Payload} {args items : List Value} {b : Bytes}
    (h : runPolicy policy (compactBody rt fields bulk args) = .ok (some b))
    (hitems : fields.get bulk.listField = .list items)
    (hargs : bulk = .mget → items = args) (hs : Short (leading fields bulk)) :
    expectedPayloadCollectionItems (opcode bulk.name) (.raw b) = some items.length := by
  cases bulk with
  | createMany =>
    obtain ⟨w, hw⟩ := (show Format.Emits rt policy .createMany fields b from h).unlimited
    obtain ⟨rfl, -, hn, -⟩ := createMany_spec fields b w hw
    rw [manyItems_raw (many_opcode (by decide)), ← content_length hitems]
    exact createMany_count (createManyOf fields) hs hn
  | completeMany =>
    obtain ⟨w, hw⟩ := (show Format.Emits rt policy .completeMany fields b from h).unlimited
    obtain ⟨rfl, -, hn⟩ := claimedMany_spec rt _ _ _ fields b w hw
    rw [manyItems_raw (many_opcode (by decide)), ← content_length hitems]
    exact claimedMany_count _ (claimedManyOf false fields) hs hn
      (by simp [Bulk.name, counted_opcodes, terminalOpcodes_eq]) (by decide) (by decide)
      (by simp [Bulk.name, counted_opcodes, claimedManyOf])
  | retryMany =>
    obtain ⟨w, hw⟩ := (show Format.Emits rt policy .retryMany fields b from h).unlimited
    obtain ⟨rfl, -, hn⟩ := claimedMany_spec rt _ _ _ fields b w hw
    rw [manyItems_raw (many_opcode (by decide)), ← content_length hitems]
    exact claimedMany_count _ (claimedManyOf true fields) hs hn
      (by simp [Bulk.name, counted_opcodes, terminalOpcodes_eq]) (by decide) (by decide)
      (by simp [Bulk.name, counted_opcodes, claimedManyOf])
  | failMany =>
    obtain ⟨w, hw⟩ := (show Format.Emits rt policy .failMany fields b from h).unlimited
    obtain ⟨rfl, -, hn⟩ := claimedMany_spec rt _ _ _ fields b w hw
    rw [manyItems_raw (many_opcode (by decide)), ← content_length hitems]
    exact claimedMany_count _ (claimedManyOf false fields) hs hn
      (by simp [Bulk.name, counted_opcodes, terminalOpcodes_eq]) (by decide) (by decide)
      (by simp [Bulk.name, counted_opcodes, claimedManyOf])
  | transitionMany =>
    obtain ⟨w, hw⟩ := (show Format.Emits rt policy .transitionMany fields b from h).unlimited
    obtain ⟨rfl, -, hn⟩ := transitionMany_spec rt fields b w hw
    rw [manyItems_raw (many_opcode (by decide)), ← content_length hitems]
    exact transitionMany_count (transitionManyOf fields) hs hn
  | cancelMany =>
    obtain ⟨w, hw⟩ := (show Format.Emits rt policy .cancelMany fields b from h).unlimited
    obtain ⟨rfl, -, hn⟩ := cancelMany_spec rt fields b w hw
    rw [manyItems_raw (many_opcode (by decide)), ← content_length hitems]
    exact cancelMany_count (cancelManyOf fields) hs hn
  | mget =>
    obtain ⟨w, hw⟩ := mget_unlimited h
    rw [hargs rfl]
    exact mget_count hw
  | valueMget =>
    obtain ⟨w, hw⟩ := (show Format.Emits rt policy .valueMget fields b from h).unlimited
    obtain ⟨rfl, -, hn⟩ := valueMget_spec fields b w hw
    rw [← content_length hitems]
    exact valueMget_count (valueMgetOf fields) hn

end Builder

end FerricStore.CollectionCounts
