import FerricStore.RawPipelineBudget

/-!
# What the raw pipelines reserve

An unlimited run of a budgeted pipeline has reserved the length of its bytes.
-/

set_option autoImplicit false

namespace FerricStore.RawPipelines
open Text Metered CompactBudget ValueCodec FlowCodec

theorem rawPipeline_reserved {item : Command → Metered Err Bytes}
    (hitem : ∀ c used v b, item c none used = .ok (b, v) → v = used+b.length)
    {mode used w : ℕ} {commands : List Command} {b : Bytes}
    (h : rawPipeline item mode commands none used = .ok (b, w)) :
    w+headerSize = used+b.length := by
  simp only [rawPipeline, bind_ok_iff, packPipelineHeader_ok_iff, pure_ok_iff] at h
  obtain ⟨_, _, ⟨-, rfl, rfl⟩, parts, _, hparts, rfl, rfl⟩ := h
  rw [each_reserved List.length hitem hparts, ← List.length_flatten]
  simp only [headerSize, List.cons_append, List.length_cons, List.length_append, u32_length]
  omega

theorem xaddCommand_reserved (rt : Runtime) (command : Command) (used v : ℕ) (b : Bytes)
    (h : xaddCommand rt command none used = .ok (b, v)) : v = used+b.length := by
  unfold xaddCommand at h
  obtain ⟨count, u, hcount, h⟩ := bind_eq_ok h
  obtain ⟨-, rfl⟩ := require_ok_iff.mp hcount
  split at h
  · simp [and_assoc] at h
    obtain ⟨-, key, hkey, -, parts, hparts, rfl⟩ := h
    rw [each_reserved List.length (fun a u v b hb => (binaryPart_spec a u v b hb).2) hparts,
      ← List.length_flatten, hkey]
    simp
    omega
  · cases h

theorem xadd_reserved (rt : Runtime) (mode : ℕ) (commands : List Command) (b : Bytes) (w : ℕ)
    (h : compactPipelineStreamXaddPayloadFromRaw rt mode commands none 0 = .ok (b, w)) :
    w = b.length := by
  obtain ⟨_, u, hu, h⟩ := bind_eq_ok h
  rw [reserve_ok_iff] at hu
  have := rawPipeline_reserved (xaddCommand_reserved rt) h
  omega

theorem sequenceArg_reserved (v : Value) (used w : ℕ) (b : Bytes)
    (h : sequenceArg v none used = .ok (b, w)) : w = used+b.length := by
  cases v with
  | bytes x =>
    simp [sequenceArg] at h
    obtain ⟨-, rfl, rfl⟩ := h
    simp
  | str s =>
    rw [sequenceArg_unlimited] at h
    cases he : encode s with
    | none =>
      rw [he] at h
      cases h
    | some x =>
      rw [he] at h
      simp at h
      obtain ⟨-, rfl, rfl⟩ := h
      simp
  | _ => cases h

theorem binarySequence_reserved (args : List Value) (mode itemCount : ℕ) (b : Bytes) (w : ℕ)
    (h : compactBinarySequence args mode itemCount none 0 = .ok (b, w)) : w = b.length := by
  simp only [compactBinarySequence, bind_ok_iff, packPipelineHeader_ok_iff, reserve_ok_iff,
    pure_ok_iff] at h
  obtain ⟨_, _, ⟨-, rfl, rfl⟩, _, _, rfl, parts, _, hparts, rfl, rfl⟩ := h
  rw [each_reserved List.length sequenceArg_reserved hparts, ← List.length_flatten]
  simp [headerSize]
  omega

theorem keyValuePart_reserved (repeated : Bool) (value : Bytes) (keyArg : Value)
    (used w : ℕ) (b : Bytes)
    (h : keyValuePart repeated value keyArg none used = .ok (b, w)) :
    w+(if repeated then 0 else 4+value.length) = used+b.length := by
  simp [keyValuePart, and_assoc] at h
  obtain ⟨-, key, hkey, -, -, rfl, rfl⟩ := h
  cases repeated <;> simp [hkey] <;> omega

theorem setKeysValue_reserved (keys : List Value) (valueArg : Value) (mode : ℕ) (b : Bytes)
    (w : ℕ) (h : compactKvSetKeysValuePayload keys valueArg mode none 0 = .ok (b, w)) :
    w = b.length := by
  unfold compactKvSetKeysValuePayload at h
  split at h
  · cases h
  · simp [and_assoc] at h
    obtain ⟨-, value, hvalue, -, -, -, first, _, hfirst, parts, hparts, rfl⟩ := h
    have h₁ := keyValuePart_reserved _ _ _ _ _ _ hfirst
    have hpart : ∀ a u v c, keyValuePart true value a none u = .ok (c, v) → v = u+c.length :=
      fun a u v c hc => by simpa using keyValuePart_reserved true value a u v c hc
    have h₂ := each_reserved List.length hpart hparts
    rw [← List.length_flatten] at h₂
    simp [hvalue, headerSize] at h₁ h₂ ⊢
    omega

def FlowGetItem.size (mode : ℕ) (x : FlowGetItem) : ℕ :=
  4+x.id.length+if mode = 9 then 0 else (optionalWire x.partition).length

theorem flowGetPart_spec (mode : ℕ) (x : FlowGetItem) (used w : ℕ) (b : Bytes)
    (h : flowGetPart mode x none used = .ok (b, w)) : b.length = x.size mode ∧ w = used := by
  simp only [flowGetPart, bind_ok_iff, compactBinary_ok_iff, ite_ok_iff, pure_ok_iff,
    compactOptionalBinary_ok_iff] at h
  obtain ⟨_, _, ⟨-, rfl, rfl⟩, ⟨hm, rfl, rfl⟩ | ⟨hm, _, _, ⟨-, rfl, rfl⟩, rfl, rfl⟩⟩ := h
  · simp [FlowGetItem.size, hm]
  · simp [FlowGetItem.size, hm]

theorem flowGetBody_spec (valuesOnly : Bool) (items : List FlowGetItem) (used w : ℕ)
    (b : Bytes) (h : flowGetBody valuesOnly items none used = .ok (b, w)) :
    b.length = headerSize+(items.map (FlowGetItem.size (flowGetMode items))).sum ∧
      w = used := by
  simp only [flowGetBody, bind_ok_iff, packPipelineHeader_ok_iff, pure_ok_iff] at h
  obtain ⟨_, _, ⟨-, rfl, rfl⟩, parts, _, hparts, rfl, rfl⟩ := h
  obtain ⟨hlen, rfl⟩ := each_sizes _ (flowGetPart_spec _) hparts
  refine ⟨?_, rfl⟩
  simp only [List.cons_append, List.length_cons, List.length_append, u32_length, hlen,
    headerSize]
  omega

theorem flowGetOptions_reserved (rt : Runtime) (options : List Value) (partitionArg : Value)
    (isMeta : Bool) (used w : ℕ) (r : Value × Bool)
    (h : flowGetOptions rt options partitionArg isMeta none used = .ok (r, w)) : w = used := by
  fun_induction flowGetOptions rt options partitionArg isMeta with
  | case1 => exact (pure_eq_ok h).2.symm
  | case2 => cases h
  | case3 _ _ _ _ _ _ ih => exact ih h
  | case4 _ _ _ _ _ _ _ ih =>
    simp only [bind_ok_iff, ofExcept_ok_iff, ite_ok_iff, decline_ok_iff, and_false,
      or_false] at h
    obtain ⟨mode, _, ⟨-, rfl⟩, -, hrest⟩ := h
    exact ih hrest
  | case5 => cases h

theorem flowGetCommand_reserved (rt : Runtime) (command : Command) (used w : ℕ)
    (x : FlowGetItem) (h : flowGetCommand rt command none used = .ok (x, w)) :
    w = used+(4+x.id.length+wireSize x.partition) := by
  unfold flowGetCommand at h
  split at h
  · split_ifs at h
    · simp only [bind_ok_iff, boundedMaybeBytes_ok_iff, boundedOptionalBytes_ok_iff,
        require_ok_iff, pure_ok_iff] at h
      obtain ⟨_, _, ⟨-, rfl, rfl⟩, id, _, ⟨hid, rfl⟩, options, _, hoptions, _, _,
        ⟨-, rfl, rfl⟩, partition, _, ⟨hpart, rfl⟩, rfl, rfl⟩ := h
      obtain rfl := flowGetOptions_reserved _ _ _ _ _ _ _ hoptions
      simp only [hid, hpart, wireSize_some, Option.join_some]
      omega
    · cases h
  · cases h

/-- The reserved sizes of the items, with the null sentinels of a batch that sends
partitions, are the sizes the items have on the wire. -/
theorem flowGet_sizes (items : List FlowGetItem) :
    (items.map fun x => 4+x.id.length+wireSize x.partition).sum+
        (if flowGetMode items ≠ 9 then 4*items.countP fun x => x.partition.isNone else 0) =
      (items.map (FlowGetItem.size (flowGetMode items))).sum := by
  by_cases hm : flowGetMode items = 9
  · have hnone : ∀ x ∈ items, x.partition = none := by
      intro x hx
      unfold flowGetMode at hm
      by_contra hne
      have hany : (items.any fun x => x.partition.isSome) = true :=
        List.any_eq_true.mpr ⟨x, hx, by simpa [Option.isSome_iff_ne_none] using hne⟩
      rw [if_pos hany] at hm
      split_ifs at hm <;> cases hm
    have hmap : (items.map fun x => 4+x.id.length+wireSize x.partition) =
        items.map (FlowGetItem.size 9) :=
      List.map_congr_left fun x hx => by simp [FlowGetItem.size, hnone x hx]
    simp [hm, hmap]
  · rw [if_pos hm]
    generalize flowGetMode items = mode at hm
    induction items with
    | nil => rfl
    | cons x items ih =>
      have hx : 4+x.id.length+wireSize x.partition+(if x.partition.isNone then 4 else 0) =
          x.size mode := by
        cases hp : x.partition <;> simp [FlowGetItem.size, hm, hp]
      simp only [List.map_cons, List.sum_cons, List.countP_cons]
      split_ifs at hx ⊢ <;> omega

theorem flowGet_reserved (rt : Runtime) (valuesOnly : Bool) (commands : List Command)
    (b : Bytes) (w : ℕ)
    (h : compactFlowGetPipelinePayloadFromRaw rt valuesOnly commands none 0 = .ok (b, w)) :
    w = b.length := by
  simp only [compactFlowGetPipelinePayloadFromRaw, bind_ok_iff, reserve_ok_iff,
    reserveIf_ok_iff] at h
  obtain ⟨_, _, rfl, items, _, hitems, _, _, rfl, hbody⟩ := h
  obtain ⟨hlen, rfl⟩ := flowGetBody_spec _ _ _ _ _ hbody
  rw [each_reserved _ (flowGetCommand_reserved rt) hitems, hlen, ← flowGet_sizes items]
  omega

def HistoryItem.size (x : HistoryItem) : ℕ := 4+x.id.length+(optionalWire x.partition).length

theorem flowHistoryPart_spec (x : HistoryItem) (used w : ℕ) (b : Bytes)
    (h : flowHistoryPart x none used = .ok (b, w)) : b.length = x.size ∧ w = used := by
  simp only [flowHistoryPart, bind_ok_iff, compactBinary_ok_iff, compactOptionalBinary_ok_iff,
    pure_ok_iff] at h
  obtain ⟨_, _, ⟨-, rfl, rfl⟩, _, _, ⟨-, rfl, rfl⟩, rfl, rfl⟩ := h
  simp [HistoryItem.size]

theorem flowHistoryOptions_reserved (rt : Runtime) (options : List Value)
    (partitionArg : Value) (page : HistoryPage) (used w : ℕ) (r : Value × HistoryPage)
    (h : flowHistoryOptions rt options partitionArg page none used = .ok (r, w)) :
    w = used := by
  fun_induction flowHistoryOptions rt options partitionArg page with
  | case1 => exact (pure_eq_ok h).2.symm
  | case2 => cases h
  | case3 _ _ _ _ _ _ ih =>
    simp only [bind_ok_iff, require_ok_iff] at h
    obtain ⟨count, _, ⟨-, rfl⟩, hrest⟩ := h
    exact ih _ hrest
  | case4 _ _ _ _ _ _ _ ih => exact ih h
  | case5 _ _ _ _ _ _ _ _ ih | case6 _ _ _ _ _ _ _ _ _ ih =>
    simp only [bind_ok_iff, ofExcept_ok_iff] at h
    obtain ⟨flag, _, ⟨-, rfl⟩, hrest⟩ := h
    exact ih _ hrest
  | case7 => cases h

theorem flowHistoryCommand_reserved (rt : Runtime) (shared : Option HistoryPage)
    (command : Command) (used w : ℕ) (r : HistoryPage × HistoryItem)
    (h : flowHistoryCommand rt shared command none used = .ok (r, w)) :
    w = used+r.2.size := by
  unfold flowHistoryCommand at h
  split at h
  · split_ifs at h
    · simp only [bind_ok_iff, boundedMaybeBytes_ok_iff, boundedOptionalBytes_ok_iff,
        require_ok_iff, reserveIf_ok_iff, agrees_ok_iff, pure_ok_iff] at h
      obtain ⟨_, _, ⟨-, rfl, rfl⟩, id, _, ⟨hid, rfl⟩, options, _, hoptions, _, _,
        ⟨-, rfl, rfl⟩, partition, _, ⟨hpart, rfl⟩, _, _, rfl, _, _, ⟨-, rfl⟩, rfl, rfl⟩ := h
      obtain rfl := flowHistoryOptions_reserved _ _ _ _ _ _ _ hoptions
      simp only [hid, hpart, wireSize_some, Option.join_some, HistoryItem.size,
        optionalWire_length]
      omega
    · cases h
  · cases h

theorem flowHistoryBody_spec (valuesOnly : Bool) (page : HistoryPage)
    (items : List HistoryItem) (used w : ℕ) (b : Bytes)
    (h : flowHistoryBody valuesOnly page items none used = .ok (b, w)) :
    b.length = headerSize+10+(items.map HistoryItem.size).sum ∧ w = used := by
  simp only [flowHistoryBody, bind_ok_iff, packPipelineHeader_ok_iff, pure_ok_iff] at h
  obtain ⟨_, _, ⟨-, rfl, rfl⟩, parts, _, hparts, rfl, rfl⟩ := h
  obtain ⟨hlen, rfl⟩ := each_sizes _ flowHistoryPart_spec hparts
  refine ⟨?_, rfl⟩
  simp only [List.cons_append, List.length_cons, List.length_append, u32_length, i64_length,
    hlen, headerSize]
  omega

theorem flowHistory_reserved (rt : Runtime) (valuesOnly : Bool) (commands : List Command)
    (b : Bytes) (w : ℕ)
    (h : compactFlowHistoryPipelinePayloadFromRaw rt valuesOnly commands none 0 = .ok (b, w)) :
    w = b.length := by
  obtain ⟨_, u, hu, h⟩ := bind_eq_ok h
  rw [reserve_ok_iff] at hu
  subst hu
  split at h
  · cases h
  · simp only [bind_ok_iff] at h
    obtain ⟨first, _, hfirst, others, _, hothers, hbody⟩ := h
    obtain ⟨hlen, rfl⟩ := flowHistoryBody_spec _ _ _ _ _ _ hbody
    have h₁ := flowHistoryCommand_reserved _ _ _ _ _ _ hfirst
    have h₂ := each_reserved (fun r => r.2.size) (flowHistoryCommand_reserved rt _) hothers
    rw [hlen, h₂, h₁]
    simp [Function.comp_def]
    omega

def SignalItem.size (x : SignalItem) : ℕ :=
  4+x.id.length+((optionalWire x.partition).length+8)

theorem flowSignalPart_spec (x : SignalItem) (used w : ℕ) (b : Bytes)
    (h : flowSignalPart x none used = .ok (b, w)) : b.length = x.size ∧ w = used := by
  simp only [flowSignalPart, bind_ok_iff, compactBinary_ok_iff, compactOptionalBinary_ok_iff,
    pure_ok_iff] at h
  obtain ⟨_, _, ⟨-, rfl, rfl⟩, _, _, ⟨-, rfl, rfl⟩, rfl, rfl⟩ := h
  simp [SignalItem.size]

theorem flowSignalBody_spec (valuesOnly : Bool) (shared : SharedSignal)
    (items : List SignalItem) (used w : ℕ) (b : Bytes)
    (h : flowSignalBody valuesOnly shared items none used = .ok (b, w)) :
    b.length = headerSize+shared.size+(items.map SignalItem.size).sum ∧ w = used := by
  simp only [flowSignalBody, bind_ok_iff, packPipelineHeader_ok_iff, compactBinary_ok_iff,
    pure_ok_iff] at h
  obtain ⟨_, _, ⟨-, rfl, rfl⟩, _, _, ⟨-, rfl, rfl⟩, _, _, ⟨-, rfl, rfl⟩, _, _, ⟨-, rfl, rfl⟩,
    parts, _, hparts, rfl, rfl⟩ := h
  obtain ⟨hlen, rfl⟩ := each_sizes _ flowSignalPart_spec hparts
  refine ⟨?_, rfl⟩
  simp only [List.cons_append, List.length_cons, List.length_append, u32_length,
    binaryWire_length, hlen, headerSize, SharedSignal.size]
  omega

theorem flowSignal_reserved (build : Command → Except Err ProtocolCommand)
    (valuesOnly : Bool) (protocolCommands : Option (List ProtocolCommand))
    (commands : List Command) (b : Bytes) (w : ℕ)
    (h : compactFlowSignalPipelinePayloadFromRaw build valuesOnly protocolCommands commands
      none 0 = .ok (b, w)) : w = b.length := by
  simp only [compactFlowSignalPipelinePayloadFromRaw, bind_ok_iff, reserve_ok_iff,
    require_ok_iff] at h
  obtain ⟨_, _, rfl, paired, _, ⟨-, rfl⟩, h⟩ := h
  split at h
  · cases h
  · simp only [bind_ok_iff] at h
    obtain ⟨first, _, hfirst, others, _, hothers, hbody⟩ := h
    obtain ⟨hlen, rfl⟩ := flowSignalBody_spec _ _ _ _ _ _ hbody
    have h₁ := flowSignalCommand_spec hfirst
    have hlater : ∀ c u v r, flowSignalCommand build (some first.1) c none u = .ok (r, v) →
        v = u+r.2.size := fun c u v r hr => by
      simpa [SignalItem.size] using flowSignalCommand_spec hr
    have h₂ := each_reserved (fun r => r.2.size) hlater hothers
    rw [hlen, h₂, h₁]
    simp [Function.comp_def, SignalItem.size]
    omega

end FerricStore.RawPipelines
