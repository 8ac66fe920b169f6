import FerricStore.IndependentOperations
import FerricStore.RawPipelineAdmission

/-!
# Mixed pipelines may run in any order

A mixed pipeline is taken only when no key is written twice, and no key is both
read and written. Its commands are then pairwise independent, so the server may
run them in any order.
-/

set_option autoImplicit false

namespace FerricStore.RawPipelines
open Text Metered CompactBudget ValueCodec FlowCodec Operations

/-- What a command of a mixed pipeline does, by the bytes of its key and value. -/
def commandOperation (rt : Runtime) : Command → Option (Operation Bytes Bytes)
  | [raw, keyArg] =>
    if rt.commandToken raw = lit "GET" then (binaryOf keyArg).map .read else none
  | [raw, keyArg, valueArg] =>
    if rt.commandToken raw = lit "SET" then do
      let key ← binaryOf keyArg
      let value ← binaryOf valueArg
      some (.write key value)
    else none
  | _ => none

/-- The operation fits behind the keys seen so far, and adds its own. -/
inductive Admits (seen : MixedKeys Bytes) : Operation Bytes Bytes → MixedKeys Bytes → Prop where
  | read (key : Bytes) (h : key ∉ seen.writtenKeys) :
      Admits seen (.read key) { seen with readKeys := key::seen.readKeys }
  | write (key value : Bytes) (hr : key ∉ seen.readKeys) (hw : key ∉ seen.writtenKeys) :
      Admits seen (.write key value) { seen with writtenKeys := key::seen.writtenKeys }

/-- No operation touches a key already seen, except to read it again. -/
def Clear (seen : MixedKeys Bytes) : Operation Bytes Bytes → Prop
  | .read key => key ∉ seen.writtenKeys
  | .write key _ => key ∉ seen.readKeys ∧ key ∉ seen.writtenKeys

theorem mixedCommand_operation {rt : Runtime} {seen : MixedKeys Bytes} {c : Command}
    {used w : ℕ} {step : Bytes × MixedKeys Bytes}
    (h : mixedCommand rt seen c none used = .ok (step, w)) :
    ∃ op, commandOperation rt c = some op ∧ Admits seen op step.2 := by
  cases c with
  | nil => simp [mixedCommand] at h
  | cons raw args =>
    simp only [mixedCommand] at h
    split at h
    · next hget =>
      unfold mixedGet at h
      split at h
      · next keyArg =>
        simp only [bind_ok_iff, unreservedMaybeBytes_ok_iff, require_ok_iff, ite_ok_iff,
          decline_ok_iff, and_false, false_or, pure_ok_iff] at h
        obtain ⟨o, u, ⟨-, hkey, rfl⟩, key, v, ⟨rfl, rfl⟩, hfree, part, x, -, rfl, rfl⟩ := h
        exact ⟨.read key, by simp [commandOperation, hget, hkey], .read key hfree⟩
      · simp at h
    · next hget =>
      split at h
      · next hset =>
        unfold mixedSet at h
        split at h
        · next keyArg valueArg =>
          simp only [bind_ok_iff, unreservedMaybeBytes_ok_iff, require_ok_iff, ite_ok_iff,
            decline_ok_iff, and_false, false_or, pure_ok_iff, not_or] at h
          obtain ⟨k, u, ⟨-, hkey, rfl⟩, v, u', ⟨-, hvalue, rfl⟩, key, x, ⟨rfl, rfl⟩, value, y,
            ⟨rfl, rfl⟩, ⟨hr, hw⟩, part, z, -, part', z', -, rfl, rfl⟩ := h
          exact ⟨.write key value, by simp [commandOperation, hset, hkey, hvalue],
            .write key value hr hw⟩
        · simp at h
      · simp at h

theorem Admits.independent {seen next : MixedKeys Bytes} {a b : Operation Bytes Bytes}
    (h : Admits seen a next) (hb : Clear next b) : Independent a b := by
  cases h with
  | read key hk =>
    cases b with
    | read l => trivial
    | write l v =>
      rintro rfl
      exact hb.1 (by simp)
  | write key value hr hw =>
    cases b with
    | read l =>
      rintro rfl
      exact hb (by simp)
    | write l v =>
      rintro rfl
      exact hb.2 (by simp)

theorem Admits.clear {seen next : MixedKeys Bytes} {a b : Operation Bytes Bytes}
    (h : Admits seen a next) (hb : Clear next b) : Clear seen b := by
  cases h with
  | read key hk =>
    cases b with
    | read l => exact hb
    | write l v => exact ⟨fun hm => hb.1 (by simp [hm]), hb.2⟩
  | write key value hr hw =>
    cases b with
    | read l => exact fun hm => hb (by simp [hm])
    | write l v => exact ⟨hb.1, fun hm => hb.2 (by simp [hm])⟩

theorem Admits.self_clear {seen next : MixedKeys Bytes} {a : Operation Bytes Bytes}
    (h : Admits seen a next) : Clear seen a := by
  cases h with
  | read key hk => exact hk
  | write key value hr hw => exact ⟨hr, hw⟩

/-- The commands of an accepted batch are pairwise independent operations. -/
theorem mixedCommands_operations {rt : Runtime} {seen : MixedKeys Bytes}
    {commands : List Command} {used w : ℕ} {parts : List Bytes}
    (h : mixedCommands rt seen commands none used = .ok (parts, w)) :
    ∃ ops, commands.mapM (commandOperation rt) = some ops ∧ ops.Pairwise Independent ∧
      ∀ op ∈ ops, Clear seen op := by
  induction commands generalizing seen used w parts with
  | nil => exact ⟨[], rfl, List.Pairwise.nil, by simp⟩
  | cons c cs ih =>
    simp only [mixedCommands, bind_ok_iff, pure_ok_iff] at h
    obtain ⟨step, u, hstep, rest, v, hrest, -, -⟩ := h
    obtain ⟨op, hop, hadmits⟩ := mixedCommand_operation hstep
    obtain ⟨ops, hops, hpairs, hclear⟩ := ih hrest
    refine ⟨op::ops, by simp [hop, hops], ?_, ?_⟩
    · exact List.pairwise_cons.mpr ⟨fun b hb => hadmits.independent (hclear b hb), hpairs⟩
    · intro b hb
      rcases List.mem_cons.mp hb with rfl | hb
      · exact hadmits.self_clear
      · exact hadmits.clear (hclear b hb)

/-- Every order of an accepted mixed pipeline gives each command the same reply and
leaves the same store. -/
theorem mixed_pipeline_any_order (rt : Runtime) (commands : List Command) (bytes : Bytes)
    (reserved : ℕ)
    (h : compactMixedPipelinePayloadFromRaw rt commands none 0 = .ok (bytes, reserved)) :
    ∃ ops, commands.mapM (commandOperation rt) = some ops ∧
      ∀ (store : Store Bytes Bytes) (σ : Equiv.Perm (Fin ops.length)),
        (∀ i : Fin ops.length, (run store (permuted ops σ)).1[i.val]? =
          (run store ops).1[(σ i).val]?) ∧
        (run store (permuted ops σ)).2 = (run store ops).2 := by
  simp only [compactMixedPipelinePayloadFromRaw, bind_ok_iff] at h
  obtain ⟨header, u, hheader, parts, w, hparts, hbytes⟩ := h
  obtain ⟨ops, hops, hpairs, -⟩ := mixedCommands_operations hparts
  exact ⟨ops, hops, fun store σ => run_permuted store ops hpairs σ⟩

def readAndWrite : List Command :=
  [[.str (lit "GET"), .str (lit "a")], [.str (lit "SET"), .bytes [98], .str (lit "1")]]

theorem readAndWrite_any_order :
    ∃ ops, readAndWrite.mapM (commandOperation Runtime.ascii) = some ops ∧
      ∀ (store : Store Bytes Bytes) (σ : Equiv.Perm (Fin ops.length)),
        (∀ i : Fin ops.length, (run store (permuted ops σ)).1[i.val]? =
          (run store ops).1[(σ i).val]?) ∧
        (run store (permuted ops σ)).2 = (run store ops).2 :=
  mixed_pipeline_any_order Runtime.ascii readAndWrite
    [0x94, 5, 0, 0, 0, 2, 2, 0, 0, 0, 1, 97, 1, 0, 0, 0, 1, 98, 0, 0, 0, 1, 49] 0
    (by decide +kernel)

end FerricStore.RawPipelines
