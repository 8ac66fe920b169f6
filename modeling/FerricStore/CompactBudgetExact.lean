import FerricStore.FlowRequestDecoding
import FerricStore.RawPipelineAdmission
import FerricStore.RawPipelineSizes

/-!
# The byte budget is exact

`Encoder` collects the budgeted encoders. A limit at least the length of the
unlimited bytes gives those bytes, and a smaller one the capacity error.
-/

set_option autoImplicit false

namespace FerricStore.CompactBudget
open Text Metered FlowCodec RawPipelines

inductive Encoder where
  | flow (f : Format)
  | flowGet
  | flowHistory
  | flowSignal
  | streamXadd
  | binarySequence
  | setKeysValue

namespace Encoder

structure SignalBatch where
  build : Command → Except Err ProtocolCommand
  valuesOnly : Bool
  protocolCommands : Option (List ProtocolCommand)
  commands : List Command

def Input : Encoder → Type
  | .flow f => f.Source
  | .flowGet | .flowHistory => Bool × List Command
  | .flowSignal => SignalBatch
  | .streamXadd => ℕ × List Command
  | .binarySequence => List Value × ℕ × ℕ
  | .setKeysValue => List Value × Value × ℕ

def encode (rt : Runtime) : (e : Encoder) → e.Input → Metered Err Bytes
  | .flow f => f.encode rt
  | .flowGet => fun x => compactFlowGetPipelinePayloadFromRaw rt x.1 x.2
  | .flowHistory => fun x => compactFlowHistoryPipelinePayloadFromRaw rt x.1 x.2
  | .flowSignal => fun x => compactFlowSignalPipelinePayloadFromRaw x.build x.valuesOnly
    x.protocolCommands x.commands
  | .streamXadd => fun x => compactPipelineStreamXaddPayloadFromRaw rt x.1 x.2
  | .binarySequence => fun x => compactBinarySequence x.1 x.2.1 x.2.2
  | .setKeysValue => fun x => compactKvSetKeysValuePayload x.1 x.2.1 x.2.2

theorem exact (rt : Runtime) (e : Encoder) (x : e.Input) : Exact 0 (e.encode rt x) := by
  cases e with
  | flow f => exact f.exact rt x
  | flowGet => exact flowGet_exact rt x.1 x.2
  | flowHistory => exact flowHistory_exact rt x.1 x.2
  | flowSignal => exact flowSignal_exact _ _ _ _
  | streamXadd => exact xadd_exact rt x.1 x.2
  | binarySequence => exact binarySequence_exact x.1 x.2.1 x.2.2
  | setKeysValue => exact setKeysValue_exact x.1 x.2.1 x.2.2

theorem reserved (rt : Runtime) (e : Encoder) (x : e.Input) (b : Bytes) (w : ℕ)
    (h : e.encode rt x none 0 = .ok (b, w)) : w = b.length := by
  cases e with
  | flow f => exact f.reserved rt x b w h
  | flowGet => exact flowGet_reserved rt x.1 x.2 b w h
  | flowHistory => exact flowHistory_reserved rt x.1 x.2 b w h
  | flowSignal => exact flowSignal_reserved _ _ _ _ b w h
  | streamXadd => exact xadd_reserved rt x.1 x.2 b w h
  | binarySequence => exact binarySequence_reserved x.1 x.2.1 x.2.2 b w h
  | setKeysValue => exact setKeysValue_reserved x.1 x.2.1 x.2.2 b w h

end Encoder

/-- A limit decides only between the unlimited bytes and the capacity error, and
the sizes computed from the arguments are the lengths of the bytes. -/
theorem compact_budget_exact (rt : Runtime) :
    (∀ (e : Encoder) (x : e.Input) (b : Bytes),
      runPolicy unboundedPolicy (e.encode rt x) = .ok (some b) →
      ∀ (limit : ℕ) (pending : Option ℕ),
        runPolicy ⟨true, some limit, pending⟩ (e.encode rt x) =
          if b.length ≤ limit then .ok (some b) else .error (.pendingCapacity pending)) ∧
    (∀ spec ∈ rawCompactPipelineSpecs rt, ∀ (mode : ℕ) (commands : List Command) (b : Bytes),
      runRaw none none (spec.2.2 mode commands) = .ok (some b) →
      rawStandardPipelineSize rt commands spec.1 = some b.length) ∧
    ∀ (commands : List Command) (b : Bytes),
      runRaw none none (compactMixedPipelinePayloadFromRaw rt commands) = .ok (some b) →
      rawMixedPipelineSize rt commands = some b.length := by
  refine ⟨?_, ?_, ?_⟩
  · intro e x b h limit pending
    obtain ⟨w, hw⟩ := finish_eq_some h
    obtain rfl := e.reserved rt x b w hw
    show finish pending (e.encode rt x (some limit) 0) = _
    rw [(e.exact rt x).start hw limit]
    split_ifs <;> rfl
  · intro spec hspec mode commands b h
    obtain ⟨w, hw⟩ := finish_eq_some h
    exact standard_size rt spec hspec mode commands b 0 w hw
  · intro commands b h
    obtain ⟨w, hw⟩ := finish_eq_some h
    exact mixed_size rt commands b 0 w hw

def onePair : List Value := [.str (lit "k"), .bytes [7]]

def onePairBytes : Bytes := [0x94, 1, 0, 0, 0, 1, 0, 0, 0, 1, 107, 0, 0, 0, 1, 7]

theorem one_pair_at_the_limit :
    runPolicy ⟨true, some 16, some 40⟩ (compactBinarySequence onePair 1 1) =
        .ok (some onePairBytes) ∧
      runPolicy ⟨true, some 15, some 40⟩ (compactBinarySequence onePair 1 1) =
        .error (.pendingCapacity (some 40)) ∧
      rawStandardPipelineSize Runtime.ascii [.str (lit "SET")::onePair] "SET" = some 16 :=
  ⟨(compact_budget_exact Runtime.ascii).1 .binarySequence (onePair, 1, 1) onePairBytes rfl 16 _,
    (compact_budget_exact Runtime.ascii).1 .binarySequence (onePair, 1, 1) onePairBytes rfl 15 _,
    (compact_budget_exact Runtime.ascii).2.1 _ List.mem_cons_self 1 _ onePairBytes rfl⟩

end FerricStore.CompactBudget
