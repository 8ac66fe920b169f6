import FerricStore.FlowItemSpecs

/-!
# The encoders emit the wire form of the content

For each encoder: an unlimited run that succeeds emits the wire form of the
payload's content, and has reserved exactly the bytes it emits.
-/

set_option autoImplicit false

namespace FerricStore.FlowCodec
open Text Metered CompactBudget ValueCodec

theorem cancelMany_spec (rt : Runtime) (payload : Payload) (b : Bytes) (w : ℕ)
    (h : compactFlowCancelManyPayload rt payload none 0 = .ok (b, w)) :
    b = (cancelManyOf payload).wire ∧ w = b.length ∧
      (cancelManyOf payload).items.length ≤ u32Max := by
  simp only [compactFlowCancelManyPayload, bind_ok_iff, guardFields_ok_iff, require_ok_iff,
    reserve_ok_iff, okReturn_ok_iff, boundedOptionalBytes_ok_iff, reserveIf_ok_iff,
    compactOptionalBinary_ok_iff, packU32_ok_iff, pure_ok_iff, exists_eq_right_right, and_assoc,
    exists_and_left, ↓existsAndEq, true_and, exists_eq_left', exists_const,
    zero_add] at h
  obtain ⟨-, now, hnow, items, hitems, -, -, partition, hpart, -, hn, parts, hparts, rfl⟩ := h
  obtain ⟨hflat, rfl⟩ := each_emits CancelItem.wire cancelItemOf cancelManyItem_spec hparts
  refine ⟨?_, ?_, ?_⟩
  · simp [cancelManyOf, CancelMany.wire, listField_eq hitems, hflat, optionalField_eq hpart,
      intField_eq hnow, triMarker_triField]
  · simp only [hpart, hflat, List.length_cons, List.length_append, optionalWire_length,
      i64_length, u32_length, Option.join_some]
    omega
  · simp [cancelManyOf, listField_eq hitems, hn]

theorem transitionMany_spec (rt : Runtime) (payload : Payload) (b : Bytes) (w : ℕ)
    (h : compactFlowTransitionManyPayload rt payload none 0 = .ok (b, w)) :
    b = (transitionManyOf payload).wire ∧ w = b.length ∧
      (transitionManyOf payload).items.length ≤ u32Max := by
  simp only [compactFlowTransitionManyPayload, bind_ok_iff, guardFields_ok_iff, reserve_ok_iff,
    boundedMaybeBytes_ok_iff, require_ok_iff, okReturn_ok_iff, boundedOptionalBytes_ok_iff,
    reserveIf_ok_iff, compactBinary_ok_iff, compactOptionalBinary_ok_iff, packU32_ok_iff,
    pure_ok_iff, exists_eq_right_right, and_assoc, exists_and_left, ↓existsAndEq, true_and,
    exists_eq_left', exists_const, zero_add] at h
  obtain ⟨-, -, -, source, hsrc, target, htgt, now, hnow, runAt, hrun, items, hitems, -, -,
    partition, hpart, -, -, -, hn, parts, hparts, rfl⟩ := h
  obtain ⟨hflat, rfl⟩ := each_emits TransitionItem.wire transitionItemOf
    transitionManyItem_spec hparts
  refine ⟨?_, ?_, ?_⟩
  · simp [transitionManyOf, TransitionMany.wire, listField_eq hitems, hflat,
      binaryField_eq hsrc, binaryField_eq htgt, optionalField_eq hpart, intField_eq hnow,
      intField_eq hrun, triMarker_triField]
  · simp only [hsrc, htgt, hpart, hflat, List.length_cons, List.length_append,
      optionalWire_length, binaryWire_length, i64_length, u32_length, Option.join_some,
      wireSize_some]
    omega
  · simp [transitionManyOf, listField_eq hitems, hn]

theorem valueMget_spec (payload : Payload) (b : Bytes) (w : ℕ)
    (h : compactFlowValueMgetPayload payload none 0 = .ok (b, w)) :
    b = (valueMgetOf payload).wire ∧ w = b.length ∧
      (valueMgetOf payload).refs.length ≤ u32Max := by
  simp only [compactFlowValueMgetPayload, bind_ok_iff, guardFields_ok_iff, require_ok_iff,
    reserve_ok_iff, packU32_ok_iff, pure_ok_iff, exists_eq_right_right, and_assoc, exists_and_left,
    ↓existsAndEq, true_and, exists_eq_left', exists_const, zero_add] at h
  obtain ⟨-, refs, hrefs, maxBytes, hmax, hn, parts, hparts, rfl⟩ := h
  obtain ⟨hflat, rfl⟩ := each_emits binaryWire binaryField binaryPart_spec hparts
  refine ⟨?_, ?_, ?_⟩
  · simp [valueMgetOf, ValueMget.wire, listField_eq hrefs, hflat, intField_eq hmax]
  · simp only [hflat, List.length_cons, List.length_append, i64_length, u32_length]
    omega
  · simp [valueMgetOf, listField_eq hrefs, hn]

theorem claimedManyTimes_spec (delayed : Bool) (nowMs : ℤ) (payload : Payload) (used w : ℕ)
    (b : Bytes) (h : claimedManyTimes delayed nowMs payload none used = .ok (b, w)) :
    b = i64 nowMs++((claimedManyOf delayed payload).runAtMs.elim [] i64++
      [(claimedManyOf delayed payload).independent.marker]) ∧ w = used := by
  unfold claimedManyTimes at h
  cases delayed with
  | true =>
    simp at h
    obtain ⟨runAt, ⟨hrun, rfl⟩, rfl⟩ := h
    simp [claimedManyOf, intField_eq hrun, independenceField, Independence.marker,
      triMarker_triField]
  | false =>
    simp at h
    obtain ⟨rfl, rfl⟩ := h
    refine ⟨?_, rfl⟩
    simp only [claimedManyOf, independenceField, compactTerminalIndependentMarker]
    cases (payload.get "terminal_local_only").truthy <;>
      cases isTrue (payload.get "independent") <;>
      simp [Independence.marker, triMarker_triField]

theorem claimedMany_spec (rt : Runtime) (requestKind okRequestKind : UInt8)
    (extraAllowed : List String) (payload : Payload) (b : Bytes) (w : ℕ)
    (h : compactFlowClaimedManyPayload rt requestKind okRequestKind extraAllowed payload
      none 0 = .ok (b, w)) :
    let c := claimedManyOf (decide ("run_at_ms" ∈ extraAllowed)) payload
    b = c.wire requestKind okRequestKind ∧ w = b.length ∧ c.items.length ≤ u32Max := by
  simp only [compactFlowClaimedManyPayload, List.cons_append, List.nil_append, List.contains_eq_mem,
    decide_eq_true_eq, bind_ok_iff, guardFields_ok_iff, require_ok_iff, reserve_ok_iff,
    okReturn_ok_iff, boundedOptionalBytes_ok_iff, reserveIf_ok_iff, compactOptionalBinary_ok_iff,
    packU32_ok_iff, pure_ok_iff, exists_eq_right_right, and_assoc, exists_and_left, ↓existsAndEq,
    true_and, exists_eq_left', exists_const, zero_add] at h
  obtain ⟨-, now, hnow, items, hitems, -, -, partition, hpart, -, times, _, htimes, hn, parts,
    hparts, rfl⟩ := h
  obtain ⟨rfl, rfl⟩ := claimedManyTimes_spec _ _ _ _ _ _ htimes
  obtain ⟨hflat, rfl⟩ := each_emits ClaimedItem.wire claimedItemOf claimedManyItem_spec hparts
  refine ⟨?_, ?_, ?_⟩
  · simp [claimedManyOf, ClaimedMany.wire, listField_eq hitems, hflat,
      optionalField_eq hpart, intField_eq hnow]
  · have hdelay : ((claimedManyOf (decide ("run_at_ms" ∈ extraAllowed)) payload).runAtMs.elim
        [] i64).length = if "run_at_ms" ∈ extraAllowed then 8 else 0 := by
      by_cases hd : "run_at_ms" ∈ extraAllowed <;> simp [claimedManyOf, hd]
    simp only [hpart, hflat, hdelay, List.length_cons, List.length_append, List.length_nil,
      optionalWire_length, i64_length, u32_length, Option.join_some]
    split_ifs <;> omega
  · simp [claimedManyOf, listField_eq hitems, hn]

theorem createManyReturnMode_spec (v : Value) (used w : ℕ) (mode : UInt8)
    (h : compactCreateManyReturnMode v none used = .ok (mode, w)) :
    mode = (if okField v then 1 else 0) ∧ w = used := by
  unfold compactCreateManyReturnMode okField at *
  cases hv : v.isNone with
  | true =>
    simp [hv] at h
    obtain ⟨rfl, rfl⟩ := h
    exact ⟨rfl, rfl⟩
  | false =>
    simp [hv, ite_ok_iff] at h
    obtain ⟨x, hx, -, rfl⟩ := h
    exact ⟨rfl, (unreservedMaybeBytes_unlimited _ _ _ _ hx).2⟩

theorem createManyPartition_spec (o : Option Bytes) (used w : ℕ) (b : Bytes)
    (h : createManyPartition o none used = .ok (b, w)) :
    b = o.elim [] binaryWire ∧ w = used := by
  cases o with
  | none =>
    simp [createManyPartition] at h
    obtain ⟨rfl, rfl⟩ := h
    exact ⟨rfl, rfl⟩
  | some x =>
    simp [createManyPartition] at h
    obtain ⟨-, rfl, rfl⟩ := h
    exact ⟨rfl, rfl⟩

theorem createMany_mixed {items : List Value} {partition : Option Bytes} {mixed : Bool}
    (hm : mixed = (partition.isNone && items.all isTriple))
    (h : ∀ item ∈ items, (createManyItemOf item).partition.isSome = mixed ∧
      isTriple item = mixed) :
    (partition.isNone && (items.map createManyItemOf).all fun x => x.partition.isSome) =
      mixed := by
  have hall : ((items.map createManyItemOf).all fun x => x.partition.isSome) =
      items.all isTriple := by
    rw [List.all_map, Bool.eq_iff_iff, List.all_eq_true, List.all_eq_true]
    apply forall₂_congr
    intro item hi
    simp [(h item hi).1, (h item hi).2]
  rw [hall, hm]

theorem createMany_spec (payload : Payload) (b : Bytes) (w : ℕ)
    (h : compactFlowCreateManyPayload payload none 0 = .ok (b, w)) :
    b = (createManyOf payload).wire ∧ w = b.length ∧
      (createManyOf payload).items.length ≤ u32Max ∧
      ∀ x ∈ (createManyOf payload).items, x.partition.isSome = (createManyOf payload).mixed := by
  simp only [compactFlowCreateManyPayload, bind_ok_iff, guardFields_ok_iff, require_ok_iff,
    reserve_ok_iff, boundedMaybeBytes_ok_iff, boundedOptionalBytes_ok_iff, compactBinary_ok_iff,
    packU32_ok_iff, pure_ok_iff, exists_eq_right_right, and_assoc, exists_and_left, ↓existsAndEq,
    true_and, exists_eq_left', exists_const, zero_add] at h
  obtain ⟨-, items, hitems, -, -, type, htype, state, hstate, now, hnow, runAt, hrun, mode, _,
    hmode, -, partition, hpart, -, -, partitionPart, _, hpp, hn, parts, hparts, rfl⟩ := h
  obtain ⟨rfl, rfl⟩ := createManyReturnMode_spec _ _ _ _ hmode
  obtain ⟨rfl, rfl⟩ := createManyPartition_spec _ _ _ _ hpp
  obtain ⟨hflat, rfl⟩ := each_emits CreateManyItem.wire createManyItemOf
    (createManyItem_spec _) hparts
  have hshape : ∀ item ∈ items, (createManyItemOf item).partition.isSome =
      (partition.isNone && items.all isTriple) ∧
        isTriple item = (partition.isNone && items.all isTriple) := by
    intro item hi
    obtain ⟨_, _, _, hok⟩ := each_items hparts item hi
    exact createManyItem_mixed _ _ _ _ _ hok
  have hmixed := createMany_mixed rfl hshape
  have hc : (createManyOf payload).mixed = (partition.isNone && items.all isTriple) := by
    simpa [CreateMany.mixed, createManyOf, listField_eq hitems, optionalField_eq hpart]
      using hmixed
  refine ⟨?_, ?_, ?_, ?_⟩
  · rw [CreateMany.wire, hc]
    simp [createManyOf, listField_eq hitems, hflat, binaryField_eq htype,
      binaryField_eq hstate, optionalField_eq hpart, intField_eq hnow, intField_eq hrun,
      triMarker_triField]
  · have hpl : (partition.elim [] binaryWire).length = wireSize partition := by
      cases partition <;> simp
    simp only [htype, hstate, hpart, hflat, hpl, List.length_cons, List.length_append,
      binaryWire_length, i64_length, u32_length, Option.join_some, wireSize_some]
    omega
  · simp [createManyOf, listField_eq hitems, hn]
  · intro x hx
    simp only [createManyOf, listField_eq hitems, List.mem_map] at hx
    obtain ⟨item, hi, rfl⟩ := hx
    rw [hc]
    exact (hshape item hi).1

theorem compactReturnMode_spec (v : Value) (used w : ℕ) (mode : UInt8)
    (h : compactReturnMode v none used = .ok (mode, w)) :
    mode = (claimReturnField v).marker ∧ w = used := by
  unfold compactReturnMode at h
  unfold claimReturnField
  split_ifs at h ⊢ <;> simp at h <;> obtain ⟨rfl, rfl⟩ := h <;> exact ⟨rfl, rfl⟩

theorem compactPartitionRequest_spec (payload : Payload) (used w : ℕ) (mode : UInt8)
    (body : Bytes) (h : compactPartitionRequest payload none used = .ok ((mode, body), w)) :
    mode = (claimPartitionsOf payload).mode ∧ body = (claimPartitionsOf payload).wire ∧
      w = used+body.length ∧
      ∀ keys, claimPartitionsOf payload = .many keys → keys.length ≤ u32Max := by
  unfold compactPartitionRequest at h
  unfold claimPartitionsOf
  split_ifs at h ⊢
  · simp [and_assoc] at h
    obtain ⟨hpart, rfl⟩ := h
    obtain ⟨rfl, rfl⟩ := binaryPart_spec _ _ _ _ hpart
    exact ⟨rfl, rfl, rfl, by simp⟩
  · simp [and_assoc] at h
    obtain ⟨values, hvalues, hn, parts, hparts, rfl, rfl⟩ := h
    obtain ⟨hflat, rfl⟩ := each_emits binaryWire binaryField binaryPart_spec hparts
    simp [ClaimPartitions.mode, ClaimPartitions.wire, listField_eq hvalues, hflat, hn,
      Nat.add_assoc]
  · simp at h
    obtain ⟨⟨rfl, rfl⟩, rfl⟩ := h
    exact ⟨rfl, rfl, rfl, by simp⟩

theorem claimDue_spec (payload : Payload) (b : Bytes) (w : ℕ)
    (h : compactFlowClaimDuePayload payload none 0 = .ok (b, w)) :
    b = (claimDueOf payload).wire ∧ w = b.length ∧
      ∀ keys, claimPartitionsOf payload = .many keys → keys.length ≤ u32Max := by
  simp only [compactFlowClaimDuePayload, Bool.and_eq_true, Int.reduceNeg, bind_ok_iff,
    guardFields_ok_iff, ite_ok_iff, decline_ok_iff, and_false, not_and, Bool.not_eq_true,
    reserve_ok_iff, boundedMaybeBytes_ok_iff, boundedOptionalBytes_ok_iff, reserveIf_ok_iff,
    require_ok_iff, compactBinary_ok_iff, compactOptionalBinary_ok_iff, pure_ok_iff, and_assoc,
    exists_and_left, ↓existsAndEq, true_and, and_true, Prod.exists,
    exists_eq_left', exists_const, false_or, zero_add] at h
  obtain ⟨-, -, -, -, -, type, htype, state, hstate, worker, hworker, lease, hlease, limit,
    hlimit, block, hblock, ratio, hratio, priority, hprio, mode, _, hmode, pmode, pbody, hp,
    -, -, -, rfl⟩ := h
  obtain ⟨rfl, rfl⟩ := compactReturnMode_spec _ _ _ _ hmode
  obtain ⟨rfl, rfl, rfl, hkeys⟩ := compactPartitionRequest_spec _ _ _ _ _ hp
  refine ⟨?_, ?_, hkeys⟩
  · simp [claimDueOf, ClaimDue.wire, binaryField_eq htype, optionalField_eq hstate,
      binaryField_eq hworker, intField_eq hlease, intField_eq hlimit, intField_eq hblock,
      intField_eq hratio, intField_eq hprio, reclaimMarker]
  · simp only [htype, hstate, hworker, List.length_cons, List.length_append,
      binaryWire_length, optionalWire_length, i64_length, Option.join_some, wireSize_some,
      Option.some.injEq]
    omega

theorem valuePutItems_spec {f : Payload → Metered Err Bytes} (owned : Bool)
    (hf : ∀ item used w b, f item none used = .ok (b, w) →
      b = (valuePutItemOf owned item).wire ∧ w = used+b.length)
    (mode : ℕ) (hmode : ownedMode mode = owned) (items : List Payload) (parts : List Bytes)
    (b : Bytes) (w : ℕ) (hparts : each f items none 6 = .ok (parts, w))
    (hb : compactPipelineRequest::UInt8.ofNat (0x80 ||| mode)::
      (u32 items.length++parts.flatten) = b) :
    b = valuePutWire mode (valuePutOf mode items) ∧ w = b.length := by
  obtain ⟨hflat, rfl⟩ := each_emits ValuePutItem.wire (valuePutItemOf owned) hf hparts
  subst hb
  refine ⟨by simp [valuePutWire, valuePutOf, hmode, hflat], ?_⟩
  simp only [hflat, List.length_cons, List.length_append, u32_length]
  omega

theorem valuePut_spec (mode : ℕ) (items : List Payload) (b : Bytes) (w : ℕ)
    (h : compactFlowValuePutPayload mode items none 0 = .ok (b, w)) :
    b = valuePutWire mode (valuePutOf mode items) ∧ w = b.length ∧
      items.length ≤ u32Max ∧ mode ∈ [7, 15, 8, 14] := by
  simp only [compactFlowValuePutPayload, ite_ok_iff, bind_ok_iff, reserve_ok_iff,
    packPipelineHeader_ok_iff, pure_ok_iff, decline_ok_iff, and_false, false_or, or_false] at h
  obtain ⟨-, _, _, rfl, _, _, ⟨⟨-, hn⟩, rfl, rfl⟩, h⟩ := h
  rcases h with ⟨hmode, parts, _, hparts, hb, rfl⟩ | ⟨-, hmode, parts, _, hparts, hb, rfl⟩
  · have howned : ownedMode mode = false := by
      unfold ownedMode
      rcases hmode with rfl | rfl <;> rfl
    obtain ⟨hbytes, hw⟩ := valuePutItems_spec false valuePutItem_spec mode howned items parts
      b _ hparts hb
    exact ⟨hbytes, hw, hn, by rcases hmode with rfl | rfl <;> decide⟩
  · have howned : ownedMode mode = true := by
      unfold ownedMode
      rcases hmode with rfl | rfl <;> rfl
    obtain ⟨hbytes, hw⟩ := valuePutItems_spec true ownedValuePutItem_spec mode howned items
      parts b _ hparts hb
    exact ⟨hbytes, hw, hn, by rcases hmode with rfl | rfl <;> decide⟩

end FerricStore.FlowCodec
