import FerricStore.RawFlowPipelines
import FerricStore.FlowItemSpecs

/-!
# The budget of the raw pipelines

Each budgeted pipeline looks at the limit only to reserve, and reserves exactly
what it emits. The shared fields of a signal batch are reserved once; a later
command is read under the bytes reserved for the first, which are at least its
own because it must repeat them.
-/

set_option autoImplicit false

namespace FerricStore.RawPipelines
open Text Metered CompactBudget ValueCodec FlowCodec

instance ofExcept_exact {α : Type} (lo : ℕ) (x : Except Err α) :
    Exact lo (ofExcept x : Metered Err α) := by
  cases x with
  | error e => exact Exact.raise lo e
  | ok a => exact Exact.pure lo a

instance rawPipeline_exact (lo : ℕ) (item : Command → Metered Err Bytes)
    [∀ c, Exact lo (item c)] (mode : ℕ) (commands : List Command) :
    Exact lo (rawPipeline item mode commands) := by
  unfold rawPipeline
  repeat refine Exact.seq inferInstance fun _ => ?_
  infer_instance

instance xaddCommand_exact (lo : ℕ) (rt : Runtime) (command : Command) :
    Exact lo (xaddCommand rt command) := by
  unfold xaddCommand
  refine Exact.seq inferInstance fun _ => ?_
  split
  · repeat refine Exact.seq inferInstance fun _ => ?_
    infer_instance
  · infer_instance

theorem xadd_exact (rt : Runtime) (mode : ℕ) (commands : List Command) :
    Exact 0 (compactPipelineStreamXaddPayloadFromRaw rt mode commands) :=
  Exact.seq inferInstance inferInstance

theorem length_le_utf8 (s : Str) : s.length ≤ (utf8 s).length := by
  induction s with
  | nil => exact Nat.zero_le 0
  | cons c s ih =>
    have hpos : 1 ≤ utf8Size c := by
      unfold utf8Size
      split_ifs <;> omega
    simp only [utf8, List.flatMap_cons, List.length_cons, List.length_append,
      utf8Point_length] at ih ⊢
    omega

theorem length_le_encode {s : Str} {b : Bytes} (h : encode s = some b) :
    s.length ≤ b.length := by
  unfold encode at h
  split_ifs at h
  cases h
  exact length_le_utf8 s

theorem sequenceArg_unlimited (s : Str) (used : ℕ) :
    sequenceArg (.str s) none used = match encode s with
      | some b => (do reserve (4+b.length); compactBinary b : Metered Err Bytes) none used
      | none => .error (.raised .unicodeEncode) := by
  cases he : encode s <;>
    simp [sequenceArg, sequenceText, ensure, canReserve, encodeStr, he, bind, pure, raise]

theorem sequenceArg_limited (s : Str) (used m : ℕ) {b : Bytes} (he : encode s = some b) :
    sequenceArg (.str s) (some m) used =
      (do reserve (4+b.length); compactBinary b : Metered Err Bytes) (some m) used := by
  have hle := encode_length_le he
  have hge := length_le_encode he
  have hsize : binaryWireSize (.str s) = some (4+b.length) := by
    rw [binaryWireSize_eq, binaryOf, he]
    rfl
  by_cases hmin : used+(4+s.length) ≤ m
  · by_cases hmax : used+(4+4*s.length) ≤ m
    · simp [sequenceArg, sequenceText, ensure, canReserve, encodeStr_of_some he, bind, pure,
        hmin, hmax]
    · by_cases hfit : used+(4+b.length) ≤ m <;>
        simp [sequenceArg, sequenceText, ensure, canReserve, encodeStr_of_some he, bind, pure,
          reserve, hmin, hmax, hsize, hfit]
  · have hfull : ¬ used+(4+b.length) ≤ m := by omega
    simp [sequenceArg, sequenceText, ensure, bind, reserve, hmin, hfull]

theorem sequenceArg_invalid (s : Str) (used m : ℕ) (he : encode s = none)
    (r : Bytes × ℕ) : sequenceArg (.str s) (some m) used ≠ .ok r := by
  have hsize : binaryWireSize (.str s) = none := by
    rw [binaryWireSize_eq, binaryOf, he]
    rfl
  by_cases hmin : used+(4+s.length) ≤ m <;> by_cases hmax : used+(4+4*s.length) ≤ m <;>
    simp [sequenceArg, sequenceText, ensure, canReserve, encodeStr, he, bind, raise, hsize,
      hmin, hmax]

instance sequenceArg_exact (lo : ℕ) (v : Value) : Exact lo (sequenceArg v) := by
  cases v with
  | bytes b => exact Exact.seq inferInstance inferInstance
  | str s =>
    cases he : encode s with
    | none =>
      constructor
      · intro used w b _ h
        rw [sequenceArg_unlimited, he] at h
        cases h
      · intro m used r h
        exact absurd h (sequenceArg_invalid s used m he r)
    | some b =>
      have hexact : Exact lo (do reserve (4+b.length); compactBinary b : Metered Err Bytes) :=
        Exact.seq inferInstance inferInstance
      constructor
      · intro used w c hu h
        rw [sequenceArg_unlimited, he] at h
        obtain ⟨huw, hlim⟩ := hexact.limited used w c hu h
        exact ⟨huw, fun m hm => by rw [sequenceArg_limited s used m he, hlim m hm]⟩
      · intro m used r h
        rw [sequenceArg_limited s used m he] at h
        rw [sequenceArg_unlimited, he]
        exact hexact.relaxed m used r h
  | _ => exact Exact.decline lo

theorem binarySequence_exact (args : List Value) (mode itemCount : ℕ) :
    Exact 0 (compactBinarySequence args mode itemCount) := by
  unfold compactBinarySequence
  repeat refine Exact.seq inferInstance fun _ => ?_
  infer_instance

instance keyValuePart_exact (lo : ℕ) (repeated : Bool) (value : Bytes) (keyArg : Value) :
    Exact lo (keyValuePart repeated value keyArg) := by
  unfold keyValuePart
  repeat refine Exact.seq inferInstance fun _ => ?_
  infer_instance

theorem setKeysValue_exact (keys : List Value) (valueArg : Value) (mode : ℕ) :
    Exact 0 (compactKvSetKeysValuePayload keys valueArg mode) := by
  unfold compactKvSetKeysValuePayload
  split
  · infer_instance
  · repeat refine Exact.seq inferInstance fun _ => ?_
    infer_instance

instance flowGetPart_exact (lo mode : ℕ) (x : FlowGetItem) : Exact lo (flowGetPart mode x) := by
  unfold flowGetPart
  refine Exact.seq inferInstance fun _ => ?_
  split_ifs
  · infer_instance
  · exact Exact.seq inferInstance inferInstance

instance flowGetBody_exact (lo : ℕ) (valuesOnly : Bool) (items : List FlowGetItem) :
    Exact lo (flowGetBody valuesOnly items) := by
  unfold flowGetBody
  repeat refine Exact.seq inferInstance fun _ => ?_
  infer_instance

instance flowGetOptions_exact (lo : ℕ) (rt : Runtime) (options : List Value)
    (partitionArg : Value) (isMeta : Bool) :
    Exact lo (flowGetOptions rt options partitionArg isMeta) := by
  fun_induction flowGetOptions rt options partitionArg isMeta with
  | case1 => infer_instance
  | case2 => infer_instance
  | case3 _ _ _ _ _ _ ih => exact ih
  | case4 _ _ _ _ _ _ _ ih =>
    refine Exact.seq inferInstance fun mode => ?_
    exact Exact.ite
  | case5 => infer_instance

instance flowGetCommand_exact (lo : ℕ) (rt : Runtime) (command : Command) :
    Exact lo (flowGetCommand rt command) := by
  unfold flowGetCommand
  split
  · split_ifs
    · repeat refine Exact.seq inferInstance fun _ => ?_
      infer_instance
    · infer_instance
  · infer_instance

theorem flowGet_exact (rt : Runtime) (valuesOnly : Bool) (commands : List Command) :
    Exact 0 (compactFlowGetPipelinePayloadFromRaw rt valuesOnly commands) := by
  unfold compactFlowGetPipelinePayloadFromRaw
  repeat refine Exact.seq inferInstance fun _ => ?_
  infer_instance

instance agrees_exact {α : Type} [DecidableEq α] (lo : ℕ) (shared : Option α) (own : α) :
    Exact lo (agrees shared own) := by
  cases shared with
  | none => exact Exact.pure lo ()
  | some first => exact Exact.ite

instance flowHistoryOptions_exact (lo : ℕ) (rt : Runtime) (options : List Value)
    (partitionArg : Value) (page : HistoryPage) :
    Exact lo (flowHistoryOptions rt options partitionArg page) := by
  fun_induction flowHistoryOptions rt options partitionArg page with
  | case1 => infer_instance
  | case2 => infer_instance
  | case3 _ _ _ _ _ _ ih => exact Exact.seq inferInstance ih
  | case4 _ _ _ _ _ _ _ ih => exact ih
  | case5 _ _ _ _ _ _ _ _ ih => exact Exact.seq inferInstance ih
  | case6 _ _ _ _ _ _ _ _ _ ih => exact Exact.seq inferInstance ih
  | case7 => infer_instance

instance flowHistoryCommand_exact (lo : ℕ) (rt : Runtime) (shared : Option HistoryPage)
    (command : Command) : Exact lo (flowHistoryCommand rt shared command) := by
  unfold flowHistoryCommand
  split
  · split_ifs
    · repeat refine Exact.seq inferInstance fun _ => ?_
      infer_instance
    · infer_instance
  · infer_instance

instance flowHistoryPart_exact (lo : ℕ) (x : HistoryItem) : Exact lo (flowHistoryPart x) := by
  unfold flowHistoryPart
  repeat refine Exact.seq inferInstance fun _ => ?_
  infer_instance

instance flowHistoryBody_exact (lo : ℕ) (valuesOnly : Bool) (page : HistoryPage)
    (items : List HistoryItem) : Exact lo (flowHistoryBody valuesOnly page items) := by
  unfold flowHistoryBody
  repeat refine Exact.seq inferInstance fun _ => ?_
  infer_instance

theorem flowHistory_exact (rt : Runtime) (valuesOnly : Bool) (commands : List Command) :
    Exact 0 (compactFlowHistoryPipelinePayloadFromRaw rt valuesOnly commands) := by
  unfold compactFlowHistoryPipelinePayloadFromRaw
  refine Exact.seq inferInstance fun _ => ?_
  split
  · infer_instance
  · repeat refine Exact.seq inferInstance fun _ => ?_
    infer_instance

def SharedSignal.size (s : SharedSignal) : ℕ :=
  12+(s.signal.length+s.ifState.length+s.transitionTo.length)

@[simp] theorem agrees_ok_iff {α : Type} [DecidableEq α] {shared : Option α} {own : α}
    {u : Unit} {used v : ℕ} :
    agrees shared own none used = .ok (u, v) ↔
      (∀ first, shared = some first → first = own) ∧ used = v := by
  cases shared with
  | none => simp [agrees]
  | some first => simp [agrees, ite_ok_iff]

instance flowSignalItem_exact (lo : ℕ) (shared : Option SharedSignal) (payload : Payload)
    (flowId signal ifState transitionTo : Option Bytes) :
    Exact lo (flowSignalItem shared payload flowId signal ifState transitionTo) := by
  unfold flowSignalItem
  repeat refine Exact.seq inferInstance fun _ => ?_
  infer_instance

theorem flowSignalItem_spec {shared : Option SharedSignal} {payload : Payload}
    {flowId signal ifState transitionTo : Option Bytes} {used w : ℕ}
    {r : SharedSignal × SignalItem}
    (h : flowSignalItem shared payload flowId signal ifState transitionTo none used =
      .ok (r, w)) :
    flowId = some r.2.id ∧ signal = some r.1.signal ∧ ifState = some r.1.ifState ∧
      transitionTo = some r.1.transitionTo ∧ (∀ first, shared = some first → first = r.1) ∧
      w = used+((optionalWire r.2.partition).length+8) := by
  simp [flowSignalItem, and_assoc] at h
  obtain ⟨-, id, rfl, signal, rfl, ifState, rfl, transitionTo, rfl, partition, hpart, now, -,
    hagree, rfl, hw⟩ := h
  refine ⟨rfl, rfl, rfl, rfl, hagree, ?_⟩
  simp only [hpart, Option.join_some] at hw
  simp only [optionalWire_length]
  omega

theorem flowSignalFields_first_exact (lo : ℕ) (payload : Payload) :
    Exact lo (flowSignalFields none payload) := by
  unfold flowSignalFields
  simp only [sharedField, Option.isNone_none, if_true]
  repeat refine Exact.seq inferInstance fun _ => ?_
  infer_instance

/-- A later command repeats fields whose bytes are reserved already. -/
theorem flowSignalFields_later_exact (lo : ℕ) (s : SharedSignal) (hlo : s.size ≤ lo)
    (payload : Payload) : Exact lo (flowSignalFields (some s) payload) := by
  unfold SharedSignal.size at hlo
  unfold flowSignalFields
  simp only [sharedField, Option.isNone_some, Bool.false_eq_true, if_false]
  refine Exact.seq inferInstance fun _ => Exact.seq inferInstance fun id => ?_
  refine unreservedMaybeBytes_seq _ _ (fun signal => ?_) ?_
  · refine unreservedMaybeBytes_seq _ _ (fun ifState => ?_) ?_
    · refine unreservedMaybeBytes_seq _ _ (fun transitionTo => inferInstance) ?_
      rintro b used ⟨r, w⟩ h
      obtain ⟨-, -, -, ht, hs, -⟩ := flowSignalItem_spec h
      cases hs s rfl
      cases ht
      omega
    · rintro b used ⟨r, w⟩ h
      obtain ⟨t, u, -, h⟩ := bind_eq_ok h
      obtain ⟨-, -, hi, -, hs, -⟩ := flowSignalItem_spec h
      cases hs s rfl
      cases hi
      omega
  · rintro b used ⟨r, w⟩ h
    obtain ⟨i, u, -, h⟩ := bind_eq_ok h
    obtain ⟨t, v, -, h⟩ := bind_eq_ok h
    obtain ⟨-, hg, -, -, hs, -⟩ := flowSignalItem_spec h
    cases hs s rfl
    cases hg
    omega

theorem flowSignalBuilt_exact {lo : ℕ} {shared : Option SharedSignal}
    (hf : ∀ payload, Exact lo (flowSignalFields shared payload)) (built : ProtocolCommand) :
    Exact lo (flowSignalBuilt shared built) := by
  unfold flowSignalBuilt
  split_ifs
  · infer_instance
  · cases built.payload with
    | raw b => exact Exact.decline lo
    | fields payload => exact hf payload

theorem sharedField_spec {shared : Option SharedSignal} {v : Value} {used w : ℕ}
    {o : Option Bytes} (h : sharedField shared v none used = .ok (o, w)) :
    w = used+if shared.isNone then wireSize o else 0 := by
  unfold sharedField at h
  split_ifs at h with hs
  · simp only [boundedMaybeBytes_ok_iff] at h
    rw [if_pos hs, h.2.2]
  · rw [if_neg hs, (unreservedMaybeBytes_unlimited _ _ _ _ h).2]
    rfl

/-- A signal command reserves its own fields, and the shared ones when it is first. -/
theorem flowSignalFields_spec {shared : Option SharedSignal} {payload : Payload}
    {used w : ℕ} {r : SharedSignal × SignalItem}
    (h : flowSignalFields shared payload none used = .ok (r, w)) :
    w = used+((if shared.isNone then r.1.size else 0)+
      (4+r.2.id.length+((optionalWire r.2.partition).length+8))) := by
  simp only [flowSignalFields, bind_ok_iff, guardFields_ok_iff, boundedMaybeBytes_ok_iff] at h
  obtain ⟨_, _, ⟨-, rfl⟩, id, _, ⟨-, -, rfl⟩, signal, _, hsignal, ifState, _, hif, target, _,
    htarget, h⟩ := h
  have h₁ := sharedField_spec hsignal
  have h₂ := sharedField_spec hif
  have h₃ := sharedField_spec htarget
  obtain ⟨rfl, rfl, rfl, rfl, -, h₄⟩ := flowSignalItem_spec h
  simp only [wireSize_some] at h₁ h₂ h₃ h₄
  unfold SharedSignal.size
  split_ifs at h₁ h₂ h₃ ⊢ <;> omega

theorem flowSignalCommand_spec {build : Command → Except Err ProtocolCommand}
    {shared : Option SharedSignal} {command : Command × Option ProtocolCommand}
    {used w : ℕ} {r : SharedSignal × SignalItem}
    (h : flowSignalCommand build shared command none used = .ok (r, w)) :
    w = used+((if shared.isNone then r.1.size else 0)+
      (4+r.2.id.length+((optionalWire r.2.partition).length+8))) := by
  obtain ⟨built, u, hbuilt, hfields⟩ := bind_eq_ok h
  have hu : u = used := by
    cases hb : builtCommand build command <;> rw [hb] at hbuilt <;> cases hbuilt
    rfl
  rw [hu] at hfields
  unfold flowSignalBuilt at hfields
  split_ifs at hfields
  · cases hfields
  · cases hp : built.payload with
    | raw b =>
      rw [hp] at hfields
      cases hfields
    | fields payload =>
      rw [hp] at hfields
      exact flowSignalFields_spec hfields

instance flowSignalPart_exact (lo : ℕ) (x : SignalItem) : Exact lo (flowSignalPart x) := by
  unfold flowSignalPart
  repeat refine Exact.seq inferInstance fun _ => ?_
  infer_instance

instance flowSignalBody_exact (lo : ℕ) (valuesOnly : Bool) (shared : SharedSignal)
    (items : List SignalItem) : Exact lo (flowSignalBody valuesOnly shared items) := by
  unfold flowSignalBody
  repeat refine Exact.seq inferInstance fun _ => ?_
  infer_instance

theorem flowSignal_exact (build : Command → Except Err ProtocolCommand) (valuesOnly : Bool)
    (protocolCommands : Option (List ProtocolCommand)) (commands : List Command) :
    Exact 0 (compactFlowSignalPipelinePayloadFromRaw build valuesOnly protocolCommands
      commands) := by
  unfold compactFlowSignalPipelinePayloadFromRaw
  refine Exact.seq inferInstance fun _ => Exact.seq inferInstance fun paired => ?_
  split
  · infer_instance
  · have hfirst : ∀ c, Exact 0 (flowSignalCommand build none c) := fun c =>
      Exact.seq inferInstance (flowSignalBuilt_exact (flowSignalFields_first_exact 0))
    refine Exact.bind_known (hfirst _) (fun first => first.1.size) ?_ fun first => ?_
    · intro used v first _ h
      rw [flowSignalCommand_spec h]
      simp
    · have hlater : ∀ c, Exact (0+first.1.size) (flowSignalCommand build (some first.1) c) :=
        fun c => Exact.seq inferInstance (flowSignalBuilt_exact
          (flowSignalFields_later_exact _ first.1 (by omega)))
      exact Exact.seq inferInstance inferInstance

end FerricStore.RawPipelines
