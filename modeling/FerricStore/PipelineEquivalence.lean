import FerricStore.PipelineAgreement

/-!
# One wire format for a batch

The raw dispatcher and the pipeline of built commands choose the same mode and
encode the same items, so bytes from raw commands are the bytes of the built ones.
-/

set_option autoImplicit false

namespace FerricStore.Pipelines
open Text Metered CompactBudget ValueCodec FlowCodec RawPipelines BasicCommands

variable (rt : Runtime) (rest : Str → List Value → Except Err ProtocolCommand)

theorem batch_agree {name : String} {item : Command → Metered Err Bytes}
    {encoder : PipelineItem} (hagree : Agree rt rest name item encoder)
    {commands : List Command} {used w : ℕ} {parts : List Bytes}
    (h : each item commands none used = .ok (parts, w)) :
    ∃ built, commands.mapM (buildProtocolCommand rt rest) = .ok built ∧
      built.length = commands.length ∧ (∀ x ∈ built, x.opcode = opcode name) ∧
      each (builtItem (opcode name) encoder) built none used = .ok (parts, w) := by
  induction commands generalizing used w parts with
  | nil => exact ⟨[], rfl, rfl, by simp, h⟩
  | cons c cs ih =>
    simp only [each, bind_ok_iff, pure_ok_iff] at h
    obtain ⟨b, v, hb, bs, u, hbs, rfl, rfl⟩ := h
    obtain ⟨x, hx, hop, hxb⟩ := hagree c _ _ _ hb
    obtain ⟨xs, hxs, hlen, hops, hall⟩ := ih hbs
    refine ⟨x::xs, ?_, by simp [hlen], List.forall_mem_cons.mpr ⟨hop, hops⟩, ?_⟩
    · simp [List.mapM_cons, hx, hxs, bind, Except.bind, pure, Except.pure]
    · simp only [each, bind_ok_iff, pure_ok_iff]
      exact ⟨b, v, hxb, bs, _, hall, rfl, rfl⟩

/-- Both tables have the same mode for a name, and encoders that agree. -/
def SameFormat (name : String) : Prop :=
  ∃ mode item encoder, findSpec rt (lit name) = some (name, mode, rawPipeline item) ∧
    ((compactPipelineItemEncoders rt).find? fun e => opcode e.1 = opcode name) =
      some (name, mode, encoder) ∧ Agree rt rest name item encoder

theorem same_format_of {name : String} {mode : ℕ} {item : Command → Metered Err Bytes}
    {encoder : PipelineItem}
    (hraw : (rawCompactPipelineSpecs rt).find? (fun spec => spec.1 = name) =
      some (name, mode, rawPipeline item))
    (hbuilt : ((compactPipelineItemEncoders rt).find? fun e => opcode e.1 = opcode name) =
      some (name, mode, encoder))
    (hagree : Agree rt rest name item encoder) : SameFormat rt rest name := by
  refine ⟨mode, item, encoder, ?_, hbuilt, hagree⟩
  simpa only [findSpec, lit_inj] using hraw

theorem same_format : ∀ name ∈ basicNames, SameFormat rt rest name := by
  simp only [basicNames, List.forall_mem_cons]
  refine ⟨same_format_of rt rest rfl rfl (set_agree rt rest),
    same_format_of rt rest rfl rfl (keys_agree rt rest (by decide)),
    same_format_of rt rest rfl rfl
      (field_agree rt rest (by decide) (by decide) (by decide) rfl fun _ _ => rfl),
    same_format_of rt rest rfl rfl (hmget_agree rt rest),
    same_format_of rt rest rfl rfl (keys_agree rt rest (by decide)),
    same_format_of rt rest rfl rfl (keys_agree rt rest (by decide)),
    same_format_of rt rest rfl rfl
      (field_agree rt rest (by decide) (by decide) (by decide) rfl fun _ _ => rfl),
    same_format_of rt rest rfl rfl (lrange_agree rt rest),
    same_format_of rt rest rfl rfl (zrange_agree rt rest),
    same_format_of rt rest rfl rfl
      (field_agree rt rest (by decide) (by decide) (by decide) rfl fun _ _ => rfl),
    same_format_of rt rest rfl rfl (hset_agree rt rest),
    same_format_of rt rest rfl rfl
      (list_agree rt rest (by decide) (by decide) (by decide) rfl fun _ _ => rfl),
    same_format_of rt rest rfl rfl
      (list_agree rt rest (by decide) (by decide) (by decide) rfl fun _ _ => rfl),
    same_format_of rt rest rfl rfl
      (list_agree rt rest (by decide) (by decide) (by decide) rfl fun _ _ => rfl),
    same_format_of rt rest rfl rfl
      (list_agree rt rest (by decide) (by decide) (by decide) rfl fun _ _ => rfl),
    same_format_of rt rest rfl rfl (zadd_agree rt rest),
    same_format_of rt rest rfl rfl
      (list_agree rt rest (by decide) (by decide) (by decide) rfl fun _ _ => rfl), ?_⟩
  simp

/-- A command under one name. -/
def Named (name : String) (c : Command) : Prop := c.head?.map rt.commandToken = some (lit name)

theorem mixedCommandSize_standard {name : String} {c : Command} {seen : MixedKeys Key}
    {step : ℕ × MixedKeys Key} (hc : Named rt name c)
    (h : mixedCommandSize rt seen c = some step) :
    ∃ size, standardCommandSize rt name c = some size := by
  unfold mixedCommandSize at h
  split at h
  · have hname := Option.some.inj hc
    simp only [Option.bind_eq_bind, Option.bind_eq_some_iff] at h
    obtain ⟨key, -, size, hsize, h⟩ := h
    split_ifs at h with hcond
    obtain rfl : name = "GET" := lit_inj.mp (hname.symm.trans hcond.1)
    exact ⟨size, by simp [standardCommandSize, hcond.1, standardArgsSize, binariesSize, hsize]⟩
  · have hname := Option.some.inj hc
    simp only [Option.bind_eq_bind, Option.bind_eq_some_iff] at h
    obtain ⟨key, -, size, hsize, other, hother, h⟩ := h
    split_ifs at h with hcond
    obtain rfl : name = "SET" := lit_inj.mp (hname.symm.trans hcond.1)
    exact ⟨size+other, by
      simp [standardCommandSize, hcond.1, standardArgsSize, binariesSize, hsize, hother]⟩
  · cases h

/-- A batch of one name that the mixed size admits is admitted by the standard size. -/
theorem mixed_standard {name : String} {commands : List Command}
    (hall : ∀ c ∈ commands, Named rt name c) {size other n : ℕ} {seen : MixedKeys Key}
    (h : mixedSizesFrom rt size seen commands = some n) :
    ∃ m, sizesFrom (standardCommandSize rt name) other commands = some m := by
  induction commands generalizing size other seen with
  | nil => exact ⟨other, rfl⟩
  | cons c cs ih =>
    simp only [mixedSizesFrom, Option.bind_eq_bind, Option.bind_eq_some_iff] at h
    obtain ⟨step, hstep, h⟩ := h
    obtain ⟨hc, hcs⟩ := List.forall_mem_cons.mp hall
    obtain ⟨added, hadded⟩ := mixedCommandSize_standard rt hc hstep
    obtain ⟨m, hm⟩ : ∃ m, sizesFrom (standardCommandSize rt name) (other+added) cs = some m :=
      ih hcs h
    exact ⟨m, by simp [sizesFrom, hadded, hm]⟩

theorem orGeneric_eq_some {r : Except Err (Option Bytes)} {b : Bytes}
    (h : orGeneric r = .ok (some b)) : r = .ok (some b) := by
  unfold orGeneric at h
  split at h <;> first | exact h | cases h

/-- A batch of one standard name that is given bytes got them from its raw encoder. -/
theorem sized_standard {name : String} {mode : ℕ}
    {encoder : ℕ → List Command → Metered Err Bytes} {options : RawPipelineOptions}
    {commands : List Command} {b : Bytes}
    (hspec : findSpec rt (lit name) = some (name, mode, encoder))
    (hall : ∀ c ∈ commands, Named rt name c)
    (h : sizedPipelinePayload rt options (lit name) commands = .ok (some b)) :
    ∃ w, encoder (withValuesOnly mode options.valuesOnly) commands none 0 = .ok (b, w) := by
  simp only [sizedPipelinePayload, hspec, Option.bind_some] at h
  cases hs : rawStandardPipelineSize rt commands name with
  | none =>
    have hmixed : rawMixedPipelineSize rt commands = none := by
      cases hm : rawMixedPipelineSize rt commands with
      | none => rfl
      | some n =>
        obtain ⟨m, hm'⟩ := mixed_standard rt hall hm
        rw [rawStandardPipelineSize, hm'] at hs
        cases hs
    simp [hs, hmixed] at h
  | some n =>
    simp only [hs, Option.isNone_some, Bool.false_eq_true, if_false, reduceCtorEq] at h
    split_ifs at h
    · cases h
    · exact finish_eq_some (orGeneric_eq_some h)

/-- The raw dispatcher of a standard name ends at the sized pipelines. -/
theorem dispatch_standard {name : String} (hname : name ∈ basicNames)
    {build : Command → Except Err ProtocolCommand} {options : RawPipelineOptions}
    {c : Command} {cs : List Command} (hc : Named rt name c) :
    compactPipelinePayloadFromRaw rt build options (c::cs) =
      sizedPipelinePayload rt options (lit name) (c::cs) := by
  have hother : ∀ other ∈ ["FLOW.HISTORY", "FLOW.SIGNAL", "FLOW.GET", "XADD", "PUBLISH"],
      lit name ≠ lit other := by
    intro other ho
    rw [Ne, lit_inj]
    rintro rfl
    revert ho
    fin_cases hname <;> decide
  simp only [List.forall_mem_cons] at hother
  obtain ⟨h₁, h₂, h₃, h₄, h₅, -⟩ := hother
  cases c with
  | nil => cases hc
  | cons raw args =>
    obtain hraw : rt.commandToken raw = lit name := Option.some.inj hc
    simp [compactPipelinePayloadFromRaw, hraw, h₁, h₂, h₃, h₄, h₅]

theorem builtPayload_eq {name : String} (hname : name ∈ basicNames) {mode : ℕ}
    {encoder : PipelineItem} {valuesOnly : Bool} {built : List ProtocolCommand} {w : ℕ}
    {parts : List Bytes}
    (hencoder : ((compactPipelineItemEncoders rt).find? fun e => opcode e.1 = opcode name) =
      some (name, mode, encoder))
    (hne : built ≠ []) (hops : ∀ x ∈ built, x.opcode = opcode name)
    (hfit : withValuesOnly mode valuesOnly ≤ 0xFF ∧ built.length ≤ u32Max)
    (heach : each (builtItem (opcode name) encoder) built none 0 = .ok (parts, w)) :
    runRaw none none (compactPipelinePayload rt valuesOnly built) =
      .ok (some (compactPipelineRequest::UInt8.ofNat (withValuesOnly mode valuesOnly)::
        u32 built.length++parts.flatten)) := by
  have hflow : opcode name ≠ opcode "FLOW.GET" := by fin_cases hname <;> decide
  cases built with
  | nil => exact absurd rfl hne
  | cons x xs =>
    have hx : x.opcode = opcode name := hops x List.mem_cons_self
    have hpipeline : compactPipelinePayload rt valuesOnly (x::xs) none 0 =
        .ok (compactPipelineRequest::UInt8.ofNat (withValuesOnly mode valuesOnly)::
          u32 (x::xs).length++parts.flatten, w) := by
      simp only [compactPipelinePayload, hx, if_neg hflow, hencoder, builtPipeline, bind_ok_iff,
        packPipelineHeader_ok_iff, pure_ok_iff]
      exact ⟨_, _, ⟨hfit, rfl, rfl⟩, parts, w, heach, rfl, rfl⟩
    show finish none (compactPipelinePayload rt valuesOnly (x::xs) none 0) = _
    rw [hpipeline]
    rfl

/-- Bytes that the raw dispatcher gives a batch of one of the seventeen commands are
the bytes of the pipeline of its built commands, and every command is built. -/
theorem raw_pipeline_is_built_pipeline {name : String} (hname : name ∈ basicNames)
    (options : RawPipelineOptions) (commands : List Command) (hne : commands ≠ [])
    (hall : ∀ c ∈ commands, Named rt name c) (b : Bytes)
    (h : compactPipelinePayloadFromRaw rt (buildProtocolCommand rt rest) options commands =
      .ok (some b)) :
    ∃ built, commands.mapM (buildProtocolCommand rt rest) = .ok built ∧
      runRaw none none (compactPipelinePayload rt options.valuesOnly built) = .ok (some b) := by
  obtain ⟨mode, item, encoder, hspec, hencoder, hagree⟩ := same_format rt rest name hname
  cases commands with
  | nil => exact absurd rfl hne
  | cons c cs =>
    rw [dispatch_standard rt hname (hall c List.mem_cons_self)] at h
    obtain ⟨w, hw⟩ := sized_standard rt hspec hall h
    simp only [rawPipeline, bind_ok_iff, packPipelineHeader_ok_iff, pure_ok_iff] at hw
    obtain ⟨_, _, ⟨hfit, rfl, rfl⟩, parts, _, hparts, rfl, rfl⟩ := hw
    obtain ⟨built, hbuilt, hlen, hops, heach⟩ := batch_agree rt rest hagree hparts
    refine ⟨built, hbuilt, ?_⟩
    rw [← hlen] at hfit ⊢
    rw [builtPayload_eq rt hname hencoder (by simp [← List.length_pos_iff, hlen]) hops hfit heach]

def noOther (_ : Str) (_ : List Value) : Except Err ProtocolCommand := .error .typeError

def scores : List Command :=
  [[.str (lit "zadd"), .str (lit "z"), .float 0x3FF0000000000000#64, .bytes [1]],
    [.bytes [0x5A, 0x41, 0x44, 0x44], .bytes [0x7A], .float 0#64, .str (lit "m")]]

def scoreBytes : Bytes :=
  [0x94, 26, 0, 0, 0, 2, 0, 0, 0, 1, 122, 63, 240, 0, 0, 0, 0, 0, 0, 0, 0, 0, 1, 1,
    0, 0, 0, 1, 122, 0, 0, 0, 0, 0, 0, 0, 0, 0, 0, 0, 1, 109]

theorem scores_raw_and_built :
    ∃ built, scores.mapM (buildProtocolCommand Runtime.ascii noOther) = .ok built ∧
      runRaw none none (compactPipelinePayload Runtime.ascii false built) =
        .ok (some scoreBytes) :=
  raw_pipeline_is_built_pipeline Runtime.ascii noOther (by decide : "ZADD" ∈ basicNames) {}
    scores (by decide) (by simp [scores, Named]; decide) scoreBytes rfl

end FerricStore.Pipelines
