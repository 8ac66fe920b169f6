import FerricStore.FlowCodec
import FerricStore.FlowRequests

/-!
# Fields and items of the encoders

A successful unlimited run of a field encoder says which content the field had,
what it emitted and what it reserved. An item encoder emits the wire form of the
item's content and has reserved exactly the bytes it emits.
-/

set_option autoImplicit false

namespace FerricStore.FlowCodec
open Text Metered CompactBudget ValueCodec

def validText : Value → Bool
  | .str s => encodable s
  | _ => true

def wireSize (o : Option Bytes) : ℕ := o.elim 0 fun b => 4+b.length

@[simp] theorem boundedMaybeBytes_ok_iff {v : Value} {o : Option Bytes} {used w : ℕ} :
    boundedMaybeBytes v none used = .ok (o, w) ↔
      validText v ∧ binaryOf v = o ∧ used+wireSize o = w := by
  constructor
  · intro h
    obtain ⟨rfl, rfl⟩ := boundedMaybeBytes_unlimited _ _ _ _ h
    refine ⟨?_, rfl, rfl⟩
    cases v with
    | str s =>
      rw [boundedMaybeBytes_str_unlimited, encode] at h
      cases he : encodable s with
      | true => exact he
      | false =>
        rw [he] at h
        cases h
    | _ => rfl
  · rintro ⟨hv, rfl, rfl⟩
    cases v with
    | str s =>
      have he : encode s = some (utf8 s) := by
        rw [encode]
        exact if_pos hv
      rw [boundedMaybeBytes_str_unlimited, binaryOf, he]
      rfl
    | _ => rfl

@[simp] theorem boundedOptionalBytes_ok_iff {v : Value} {o : Option (Option Bytes)} {used w : ℕ} :
    boundedOptionalBytes v none used = .ok (o, w) ↔
      validText v ∧ optionalBinaryOf v = o ∧ used+wireSize o.join = w := by
  unfold boundedOptionalBytes optionalBinaryOf
  split
  · rw [pure_ok_iff]
    constructor
    · rintro ⟨rfl, rfl⟩
      exact ⟨rfl, rfl, rfl⟩
    · rintro ⟨-, rfl, rfl⟩
      exact ⟨rfl, rfl⟩
  · simp only [bind_ok_iff, boundedMaybeBytes_ok_iff, pure_ok_iff]
    constructor
    · rintro ⟨e, u, ⟨hv, rfl, rfl⟩, rfl, rfl⟩
      refine ⟨hv, rfl, ?_⟩
      cases binaryOf v <;> rfl
    · rintro ⟨hv, rfl, rfl⟩
      refine ⟨_, _, ⟨hv, rfl, rfl⟩, rfl, ?_⟩
      cases binaryOf v <;> rfl

@[simp] theorem packU32_ok_iff {n used v : ℕ} {b : Bytes} :
    packU32 n none used = .ok (b, v) ↔ n ≤ u32Max ∧ u32 n = b ∧ used = v := by
  simp [packU32, ite_ok_iff, pure_ok_iff, raise_ok_iff]

@[simp] theorem compactBinary_ok_iff {x b : Bytes} {used v : ℕ} :
    compactBinary x none used = .ok (b, v) ↔
      x.length ≤ u32Max ∧ binaryWire x = b ∧ used = v := by
  simp only [compactBinary, bind_ok_iff, packU32_ok_iff, pure_ok_iff]
  constructor
  · rintro ⟨_, _, ⟨hn, rfl, rfl⟩, rfl, rfl⟩
    exact ⟨hn, rfl, rfl⟩
  · rintro ⟨hn, rfl, rfl⟩
    exact ⟨_, _, ⟨hn, rfl, rfl⟩, rfl, rfl⟩

def withinU32 (o : Option Bytes) : Prop := ∀ b, o = some b → b.length ≤ u32Max

@[simp] theorem compactOptionalBinary_ok_iff {o : Option Bytes} {b : Bytes} {used v : ℕ} :
    compactOptionalBinary o none used = .ok (b, v) ↔
      withinU32 o ∧ optionalWire o = b ∧ used = v := by
  cases o with
  | none => simp [compactOptionalBinary, pure_ok_iff, withinU32, optionalWire]
  | some x => simp [compactOptionalBinary, compactBinary_ok_iff, withinU32, optionalWire]

@[simp] theorem packPipelineHeader_ok_iff {mode count used v : ℕ} {b : Bytes} :
    packPipelineHeader mode count none used = .ok (b, v) ↔
      (mode ≤ 0xFF ∧ count ≤ u32Max) ∧
        compactPipelineRequest::UInt8.ofNat mode::u32 count = b ∧ used = v := by
  unfold packPipelineHeader
  split_ifs with h <;> simp [h]

@[simp] theorem guardFields_ok_iff {payload : Payload} {allowed : List String} {u : Unit}
    {used v : ℕ} :
    guardFields payload allowed none used = .ok (u, v) ↔
      payload.fieldsWithin allowed ∧ used = v := by
  simp [guardFields, ite_ok_iff, pure_ok_iff, decline_ok_iff]

@[simp] theorem okReturn_ok_iff {rt : Runtime} {mode : Value} {ok : Bool} {used v : ℕ} :
    okReturn rt mode none used = .ok (ok, v) ↔
      (mode.isNone ∨ rt.commandToken mode = lit "OK_ON_SUCCESS") ∧ okField mode = ok ∧
        used = v := by
  unfold okReturn okField
  by_cases hn : mode.isNone <;> simp [hn, ite_ok_iff, pure_ok_iff, decline_ok_iff]

@[simp] theorem u32_length (n : ℕ) : (u32 n).length = 4 := BigEndian.encode_length 4 n

@[simp] theorem i64_length (n : ℤ) : (i64 n).length = 8 := BigEndian.encodeSigned_length 8 n

@[simp] theorem binaryWire_length (b : Bytes) : (binaryWire b).length = 4+b.length := by
  simp [binaryWire]

@[simp] theorem optionalWire_length (o : Option Bytes) :
    (optionalWire o).length = wireSize o+if o = none then 4 else 0 := by
  cases o <;> simp [optionalWire, wireSize]

theorem binaryField_eq {v : Value} {b : Bytes} (h : binaryOf v = some b) :
    binaryField v = b := by
  rw [binaryField, h]
  rfl

theorem optionalField_eq {v : Value} {o : Option Bytes} (h : optionalBinaryOf v = some o) :
    optionalField v = o := by
  rw [optionalField, h]
  rfl

theorem intField_eq {v : Value} {n : ℤ} (h : compactI64 v = some n) : intField v = n := by
  rw [intField, h]
  rfl

@[simp] theorem wireSize_none : wireSize none = 0 := rfl

@[simp] theorem wireSize_some (b : Bytes) : wireSize (some b) = 4+b.length := rfl

theorem listField_eq {v : Value} {xs : List Value} (h : asList v = some xs) :
    listField v = xs := by
  rw [listField, h]
  rfl

theorem dictField_eq {v : Value} {es : Dict Key Value} (h : asDict v = some es) :
    dictField v = es := by
  rw [dictField, h]
  rfl

theorem triMarker_triField (v : Value) : triMarker (triField v) = compactBoolMarker v := by
  unfold compactBoolMarker triField
  cases v.isNone <;> cases v.truthy <;> rfl

theorem cancelManyItem_spec (item : Value) (used w : ℕ) (b : Bytes)
    (h : cancelManyItem item none used = .ok (b, w)) :
    b = (cancelItemOf item).wire ∧ w = used+b.length := by
  simp only [cancelManyItem, bind_ok_iff, require_ok_iff, boundedMaybeBytes_ok_iff,
    boundedOptionalBytes_ok_iff, reserveIf_ok_iff, reserve_ok_iff, compactBinary_ok_iff,
    compactOptionalBinary_ok_iff, pure_ok_iff, and_assoc, exists_and_left, ↓existsAndEq, true_and,
    exists_eq_left', exists_const] at h
  obtain ⟨fields, hitem, -, -, id, hid, partition, hpart, fencing, hfen, -, -, rfl, rfl⟩ := h
  refine ⟨?_, ?_⟩
  · simp [cancelItemOf, CancelItem.wire, dictField_eq hitem, binaryField_eq hid,
      optionalField_eq hpart, intField_eq hfen]
  · simp [hid, hpart]
    omega

theorem transitionManyItem_spec (item : Value) (used w : ℕ) (b : Bytes)
    (h : transitionManyItem item none used = .ok (b, w)) :
    b = (transitionItemOf item).wire ∧ w = used+b.length := by
  simp only [transitionManyItem, bind_ok_iff, require_ok_iff, boundedMaybeBytes_ok_iff,
    boundedOptionalBytes_ok_iff, reserveIf_ok_iff, reserve_ok_iff, compactBinary_ok_iff,
    compactOptionalBinary_ok_iff, pure_ok_iff, and_assoc, exists_and_left, ↓existsAndEq, true_and,
    exists_eq_left', exists_const] at h
  obtain ⟨fields, hitem, -, -, -, id, hid, partition, hpart, lease, hlease, fencing, hfen,
    -, -, -, rfl, rfl⟩ := h
  refine ⟨?_, ?_⟩
  · simp [transitionItemOf, TransitionItem.wire, dictField_eq hitem, binaryField_eq hid,
      optionalField_eq hpart, optionalField_eq hlease, intField_eq hfen]
  · simp [hid, hpart, hlease]
    omega

theorem claimedManyItem_spec (item : Value) (used w : ℕ) (b : Bytes)
    (h : claimedManyItem item none used = .ok (b, w)) :
    b = (claimedItemOf item).wire ∧ w = used+b.length := by
  simp only [claimedManyItem, bind_ok_iff, require_ok_iff, ↓existsAndEq, and_true] at h
  obtain ⟨fields, hitem, h⟩ := h
  have hlist := listField_eq hitem
  unfold claimedManyFields at h
  split at h
  · simp [and_assoc] at h
    obtain ⟨-, -, partition, hpart, -, id, hid, lease, hlease, fencing, hfen,
      -, -, -, rfl, rfl⟩ := h
    refine ⟨?_, ?_⟩
    · simp [claimedItemOf, ClaimedItem.wire, optionalWire, hlist, binaryField_eq hid,
        binaryField_eq hpart, binaryField_eq hlease, intField_eq hfen]
    · simp [hid, hpart, hlease]
      omega
  · simp [and_assoc] at h
    obtain ⟨-, -, id, hid, lease, hlease, fencing, hfen, -, -, rfl, rfl⟩ := h
    refine ⟨?_, ?_⟩
    · simp [claimedItemOf, ClaimedItem.wire, optionalWire, hlist, binaryField_eq hid,
        binaryField_eq hlease, intField_eq hfen]
    · simp [hid, hlease]
      omega
  · cases h

theorem createManyItem_spec (mixed : Bool) (item : Value) (used w : ℕ) (b : Bytes)
    (h : createManyItem mixed item none used = .ok (b, w)) :
    b = (createManyItemOf item).wire ∧ w = used+b.length := by
  simp only [createManyItem, bind_ok_iff, require_ok_iff, ↓existsAndEq, and_true] at h
  obtain ⟨fields, hitem, h⟩ := h
  have hlist := listField_eq hitem
  unfold createManyFields at h
  split at h
  · simp [and_assoc] at h
    obtain ⟨-, -, id, hid, payload, hpay, -, -, partition, hpart, -, -, rfl, rfl⟩ := h
    refine ⟨?_, ?_⟩
    · simp [createManyItemOf, CreateManyItem.wire, hlist, binaryField_eq hid,
        binaryField_eq hpart, binaryField_eq hpay]
    · simp [hid, hpart, hpay]
      omega
  · simp [and_assoc] at h
    obtain ⟨-, -, id, hid, payload, hpay, -, -, rfl, rfl⟩ := h
    refine ⟨?_, ?_⟩
    · simp [createManyItemOf, CreateManyItem.wire, hlist, binaryField_eq hid,
        binaryField_eq hpay]
    · simp [hid, hpay]
      omega
  · cases h

/-- An accepted item has a partition of its own exactly in a mixed batch. -/
theorem createManyItem_mixed (mixed : Bool) (item : Value) (used w : ℕ) (b : Bytes)
    (h : createManyItem mixed item none used = .ok (b, w)) :
    (createManyItemOf item).partition.isSome = mixed ∧ isTriple item = mixed := by
  simp only [createManyItem, bind_ok_iff, require_ok_iff, ↓existsAndEq, and_true] at h
  obtain ⟨fields, hitem, h⟩ := h
  have hlist := listField_eq hitem
  unfold createManyFields at h
  split at h
  · simp [createManyItemOf, hlist, isTriple, hitem]
  · simp [createManyItemOf, hlist, isTriple, hitem]
  · cases h

theorem binaryPart_spec (v : Value) (used w : ℕ) (b : Bytes)
    (h : binaryPart v none used = .ok (b, w)) :
    b = binaryWire (binaryField v) ∧ w = used+b.length := by
  simp only [binaryPart, bind_ok_iff, boundedMaybeBytes_ok_iff, require_ok_iff,
    compactBinary_ok_iff, and_assoc, exists_and_left, ↓existsAndEq, true_and] at h
  obtain ⟨-, x, hx, -, rfl, rfl⟩ := h
  exact ⟨by rw [binaryField_eq hx], by simp [hx]⟩

theorem valuePutItem_spec (item : Payload) (used w : ℕ) (b : Bytes)
    (h : valuePutItem item none used = .ok (b, w)) :
    b = (valuePutItemOf false item).wire ∧ w = used+b.length := by
  simp only [valuePutItem, bind_ok_iff, require_ok_iff, boundedMaybeBytes_ok_iff, reserve_ok_iff,
    compactBinary_ok_iff, pure_ok_iff, and_assoc, exists_and_left, ↓existsAndEq, true_and,
    exists_eq_left', exists_const] at h
  obtain ⟨now, hnow, -, value, hval, -, rfl, rfl⟩ := h
  refine ⟨?_, ?_⟩
  · simp [valuePutItemOf, ValuePutItem.wire, binaryField_eq hval, intField_eq hnow]
  · simp [hval]
    omega

theorem ownedValuePutItem_spec (item : Payload) (used w : ℕ) (b : Bytes)
    (h : ownedValuePutItem item none used = .ok (b, w)) :
    b = (valuePutItemOf true item).wire ∧ w = used+b.length := by
  simp only [ownedValuePutItem, bind_ok_iff, require_ok_iff, boundedMaybeBytes_ok_iff,
    boundedOptionalBytes_ok_iff, reserveIf_ok_iff, reserve_ok_iff, compactBinary_ok_iff,
    compactOptionalBinary_ok_iff, pure_ok_iff, and_assoc, exists_and_left, ↓existsAndEq, true_and,
    exists_eq_left', exists_const] at h
  obtain ⟨now, hnow, -, -, -, -, value, hval, owner, hown, name, hname, partition, hpart,
    -, -, -, -, rfl, rfl⟩ := h
  refine ⟨?_, ?_⟩
  · simp [valuePutItemOf, ValuePutItem.wire, ValueOwner.wire, binaryField_eq hval,
      binaryField_eq hown, binaryField_eq hname, optionalField_eq hpart, intField_eq hnow]
  · simp [hval, hown, hname, hpart]
    omega

end FerricStore.FlowCodec
