import FerricStore.RawPipelineDispatch
import FerricStore.FlowItemSpecs

/-!
# The predicted size of a raw pipeline is its size

Whenever a standard or mixed encoder returns bytes, the size computed from the
arguments is their length.
-/

set_option autoImplicit false

namespace FerricStore.RawPipelines
open Text Metered CompactBudget ValueCodec FlowCodec

@[simp] theorem plainBytes_ok_iff {v : Value} {o : Option Bytes} {used w : ℕ} :
    plainBytes v none used = .ok (o, w) ↔ validText v ∧ binaryOf v = o ∧ used = w := by
  cases v with
  | str s =>
    simp only [plainBytes, bind_ok_iff, encodeStr, binaryOf, validText, encode]
    cases encodable s <;> simp [and_comm]
  | _ => simp [plainBytes, binaryOf, validText]

@[simp] theorem unreservedMaybeBytes_ok_iff {v : Value} {o : Option Bytes} {used w : ℕ} :
    unreservedMaybeBytes v none used = .ok (o, w) ↔
      validText v ∧ binaryOf v = o ∧ used = w := by
  constructor
  · intro h
    obtain ⟨rfl, rfl⟩ := unreservedMaybeBytes_unlimited _ _ _ _ h
    refine ⟨?_, rfl, rfl⟩
    cases v with
    | str s =>
      cases he : encodable s with
      | true => exact he
      | false => simp [unreservedMaybeBytes, bind, fits, encodeStr, encode, he, raise] at h
    | _ => rfl
  · rintro ⟨hv, rfl, rfl⟩
    cases v with
    | str s =>
      have he : encode s = some (utf8 s) := by
        rw [encode]
        exact if_pos hv
      rw [unreservedMaybeBytes_str s none _ he rfl, binaryOf, he]
    | _ => rfl

theorem sizesFrom_eq (commandSize : Command → Option ℕ) {item : Command → Metered Err Bytes}
    (hitem : ∀ c used v b, item c none used = .ok (b, v) → commandSize c = some b.length)
    {commands : List Command} {used w size : ℕ} {parts : List Bytes}
    (h : each item commands none used = .ok (parts, w)) :
    sizesFrom commandSize size commands = some (size+parts.flatten.length) := by
  induction commands generalizing used w size parts with
  | nil =>
    obtain ⟨rfl, rfl⟩ := pure_eq_ok h
    rfl
  | cons c cs ih =>
    simp only [each, bind_ok_iff, pure_ok_iff] at h
    obtain ⟨b, v, hb, bs, u, hbs, rfl, rfl⟩ := h
    simp only [sizesFrom, hitem c _ _ _ hb, Option.bind_eq_bind, Option.bind_some, ih hbs,
      List.flatten_cons, List.length_append, Nat.add_assoc]

/-- An encoder whose commands have the predicted sizes has the predicted size. -/
theorem rawPipeline_size (rt : Runtime) (name : String) {item : Command → Metered Err Bytes}
    (hitem : ∀ c used v b, item c none used = .ok (b, v) →
      standardCommandSize rt name c = some b.length)
    {mode : ℕ} {commands : List Command} {used w : ℕ} {b : Bytes}
    (h : rawPipeline item mode commands none used = .ok (b, w)) :
    rawStandardPipelineSize rt commands name = some b.length := by
  simp only [rawPipeline, bind_ok_iff, packPipelineHeader_ok_iff, pure_ok_iff] at h
  obtain ⟨_, _, ⟨-, rfl, rfl⟩, parts, _, hparts, rfl, rfl⟩ := h
  rw [rawStandardPipelineSize, sizesFrom_eq _ hitem hparts]
  simp [headerSize]
  omega

theorem wireSize_of_binary {v : Value} {b : Bytes} (h : binaryOf v = some b) :
    binaryWireSize v = some (4+b.length) := by
  rw [binaryWireSize_eq, h]
  rfl

/-- A name as the code writes it: `upper` leaves it alone. -/
def plainName (name : String) : Bool :=
  isAscii (lit name) && (lit name).map upperAscii = lit name

/-- The name check of the encoders is the one of the size. -/
theorem commandToken_of_is (rt : Runtime) {name : String} (hname : plainName name) {raw : Value}
    (h : rt.commandIs name raw = true) : rt.commandToken raw = lit name := by
  simp only [plainName, Bool.and_eq_true, decide_eq_true_eq] at hname
  refine (rt.commandIs_iff name raw ?_).mp h
  show rt.upperText (lit name) = lit name
  unfold Runtime.upperText
  rw [if_pos hname.1, hname.2]

def keyNames : List String := ["GET", "HGETALL", "SMEMBERS"]

def pairNames : List String :=
  ["HGET", "SISMEMBER", "ZSCORE", "LPUSH", "RPUSH", "SADD", "SREM", "ZREM", "PUBLISH"]

theorem keyNames_size {name : String} (h : name ∈ keyNames) (key : Value) :
    standardArgsSize name [key] = binariesSize [key] := by
  fin_cases h <;> rfl

theorem pairNames_size {name : String} (h : name ∈ pairNames) (key item : Value) :
    standardArgsSize name [key, item] = binariesSize [key, item] := by
  fin_cases h <;> rfl

theorem encodeAll_ok_iff {vs : List Value} {os : List (Option Bytes)} {used w : ℕ} :
    each unreservedMaybeBytes vs none used = .ok (os, w) ↔
      (∀ v ∈ vs, validText v) ∧ vs.map binaryOf = os ∧ used = w :=
  each_ok_iff _ _ fun _ _ _ _ => unreservedMaybeBytes_ok_iff

theorem packAll_ok_iff {xs parts : List Bytes} {used w : ℕ} :
    each compactBinary xs none used = .ok (parts, w) ↔
      (∀ x ∈ xs, x.length ≤ u32Max) ∧ xs.map binaryWire = parts ∧ used = w :=
  each_ok_iff _ _ fun _ _ _ _ => compactBinary_ok_iff

theorem mapM_id_eq_some {α : Type} {os : List (Option α)} {xs : List α} :
    os.mapM id = some xs ↔ os = xs.map some := by
  induction os generalizing xs with
  | nil => cases xs <;> simp
  | cons o os ih =>
    cases xs with
    | nil => cases o <;> simp [Option.bind_eq_some_iff]
    | cons x xs => cases o <;> simp [Option.bind_eq_some_iff, ih, and_comm]

theorem binariesSize_eq {vs : List Value} {xs : List Bytes}
    (h : (vs.map binaryOf).mapM id = some xs) :
    binariesSize vs = some (xs.map binaryWire).flatten.length := by
  rw [mapM_id_eq_some] at h
  induction vs generalizing xs with
  | nil =>
    cases xs with
    | nil => rfl
    | cons x xs => cases h
  | cons v vs ih =>
    cases xs with
    | nil => cases h
    | cons x xs =>
      simp only [List.map_cons, List.cons.injEq] at h
      simp [binariesSize, wireSize_of_binary h.1, ih h.2]

section sizes

variable (rt : Runtime) (c : Command) (used v : ℕ) (b : Bytes)

theorem setCommand_size (h : setCommand rt c none used = .ok (b, v)) :
    standardCommandSize rt "SET" c = some b.length := by
  unfold setCommand at h
  split at h
  · split_ifs at h with hname
    · simp at h
      obtain ⟨-, key, hkey, -, value, hvalue, -, -, rfl, rfl⟩ := h
      have ht := commandToken_of_is rt (by decide) hname
      simp [standardCommandSize, ht, standardArgsSize, binariesSize, wireSize_of_binary hkey,
        wireSize_of_binary hvalue]
    · cases h
  · cases h

theorem keyCommand_size {name : String} (hkind : name ∈ keyNames)
    (h : keyCommand rt name c none used = .ok (b, v)) :
    standardCommandSize rt name c = some b.length := by
  have hplain : plainName name := by fin_cases hkind <;> decide
  unfold keyCommand at h
  split at h
  · split_ifs at h with hname
    · simp at h
      obtain ⟨-, key, hkey, -, rfl, rfl⟩ := h
      have ht := commandToken_of_is rt hplain hname
      simp [standardCommandSize, ht, keyNames_size hkind, binariesSize,
        wireSize_of_binary hkey]
    · cases h
  · cases h

theorem twoBinaryCommand_size {name : String} (hkind : name ∈ pairNames)
    (h : twoBinaryCommand rt name c none used = .ok (b, v)) :
    standardCommandSize rt name c = some b.length := by
  have hplain : plainName name := by fin_cases hkind <;> decide
  unfold twoBinaryCommand at h
  split at h
  · split_ifs at h with hname
    · simp at h
      obtain ⟨-, -, key, hkey, item, hitem, -, -, rfl, rfl⟩ := h
      have ht := commandToken_of_is rt hplain hname
      simp [standardCommandSize, ht, pairNames_size hkind, binariesSize,
        wireSize_of_binary hkey, wireSize_of_binary hitem]
    · cases h
  · cases h

theorem withScores_length {name : String} {options : List Value} {used v : ℕ} {scores : Bool}
    (h : withScores rt name options none used = .ok (scores, v)) :
    (options.length = 0 ∨ name ≠ "LRANGE" ∧ options.length = 1) ∧ v = used := by
  unfold withScores at h
  split at h
  · exact ⟨.inl rfl, (pure_eq_ok h).2.symm⟩
  · simp [ite_ok_iff] at h
    exact ⟨.inr ⟨h.1, rfl⟩, h.2.2.2.symm⟩
  · cases h

theorem rangeCommand_size {name : String} (hkind : name = "LRANGE" ∨ name = "ZRANGE")
    (h : rangeCommand rt name c none used = .ok (b, v)) :
    standardCommandSize rt name c = some b.length := by
  unfold rangeCommand at h
  split at h
  · rename_i raw keyArg startArg stopArg options
    by_cases hname : rt.commandToken raw = lit name
    · rw [if_pos hname] at h
      simp only [bind_ok_iff, unreservedMaybeBytes_ok_iff, require_ok_iff,
        compactBinary_ok_iff, pure_ok_iff] at h
      obtain ⟨scores, _, hscores, _, _, ⟨-, rfl, rfl⟩, key, _, ⟨hkey, rfl⟩, start, _, ⟨-, rfl⟩,
        stop, _, ⟨-, rfl⟩, _, _, ⟨-, rfl, rfl⟩, rfl, rfl⟩ := h
      obtain ⟨hlen, -⟩ := withScores_length rt hscores
      rcases hkind with rfl | rfl
      · simp at hlen
        simp [standardCommandSize, hname, standardArgsSize, binariesSize, hlen,
          wireSize_of_binary hkey]
      · simp at hlen
        simp [standardCommandSize, hname, standardArgsSize, binariesSize, hlen,
          wireSize_of_binary hkey]
    · rw [if_neg hname] at h
      cases h
  · cases h

theorem hsetCommand_size (h : hsetCommand rt c none used = .ok (b, v)) :
    standardCommandSize rt "HSET" c = some b.length := by
  unfold hsetCommand at h
  split at h
  · split_ifs at h with hname
    · simp at h
      obtain ⟨-, -, -, key, hkey, field, hfield, value, hvalue, -, -, -, rfl, rfl⟩ := h
      have ht := commandToken_of_is rt (by decide) hname
      simp [standardCommandSize, ht, standardArgsSize, binariesSize, wireSize_of_binary hkey,
        wireSize_of_binary hfield, wireSize_of_binary hvalue]
    · cases h
  · cases h

theorem zaddCommand_size (h : zaddCommand rt c none used = .ok (b, v)) :
    standardCommandSize rt "ZADD" c = some b.length := by
  unfold zaddCommand at h
  split at h
  · split_ifs at h with hname
    · simp at h
      obtain ⟨-, -, key, hkey, member, hmember, score, -, -, -, rfl, rfl⟩ := h
      have ht := commandToken_of_is rt (by decide) hname
      simp [standardCommandSize, ht, standardArgsSize, binariesSize, wireSize_of_binary hkey,
        wireSize_of_binary hmember, f64]
      omega
    · cases h
  · cases h

theorem hmgetCommand_size (h : hmgetCommand rt c none used = .ok (b, v)) :
    standardCommandSize rt "HMGET" c = some b.length := by
  unfold hmgetCommand at h
  split at h
  · split_ifs at h with hname
    · simp only [bind_ok_iff, unreservedMaybeBytes_ok_iff, require_ok_iff, encodeAll_ok_iff,
        packAll_ok_iff, packU32_ok_iff, compactBinary_ok_iff, pure_ok_iff] at h
      obtain ⟨_, _, ⟨-, rfl, rfl⟩, key, _, ⟨hkey, rfl⟩, _, _, ⟨-, rfl, rfl⟩, fields, _,
        ⟨hfields, rfl⟩, _, _, ⟨-, rfl, rfl⟩, _, _, ⟨-, rfl, rfl⟩, _, _, ⟨-, rfl, rfl⟩, rfl,
        rfl⟩ := h
      have ht := commandToken_of_is rt (by decide) hname
      rename_i keyArg fieldArg fieldArgs
      have hsize : standardArgsSize "HMGET" (keyArg::fieldArg::fieldArgs) =
          (binariesSize (keyArg::fieldArg::fieldArgs)).map fun size => size+4 := by
        simp [standardArgsSize]
      rw [standardCommandSize, if_pos ht, hsize, binariesSize, wireSize_of_binary hkey,
        binariesSize_eq hfields]
      simp
      omega
    · cases h
  · cases h

end sizes

def keyBytes : Key → Option Bytes
  | .str s => encode s
  | .bytes b => some b
  | .other _ => none

theorem rawKey_of_binary {v : Value} {x : Bytes} (h : binaryOf v = some x) :
    ∃ k, rawKey v = some k ∧ keyBytes k = some x := by
  cases v <;> first | exact ⟨_, rfl, h⟩ | cases h

/-- The encoder has seen the bytes of every key the size computation has seen. -/
def Tracked (raw : List Key) (seen : List Bytes) : Prop :=
  ∀ k ∈ raw, ∀ x, keyBytes k = some x → x ∈ seen

theorem Tracked.cons {raw : List Key} {seen : List Bytes} (h : Tracked raw seen) {k : Key}
    {x : Bytes} (hx : keyBytes k = some x) : Tracked (k::raw) (x::seen) := by
  intro a ha y hy
  rcases List.mem_cons.mp ha with rfl | ha
  · rw [hx] at hy
    cases hy
    exact List.mem_cons_self
  · exact List.mem_cons_of_mem x (h a ha y hy)

theorem Tracked.not_mem {raw : List Key} {seen : List Bytes} (h : Tracked raw seen) {k : Key}
    {x : Bytes} (hx : keyBytes k = some x) (hn : x ∉ seen) : k ∉ raw :=
  fun hk => hn (h k hk x hx)

/-- Both walks over a mixed batch agree on the keys seen so far. -/
structure SameKeys (raw : MixedKeys Key) (seen : MixedKeys Bytes) : Prop where
  reads : Tracked raw.readKeys seen.readKeys
  writes : Tracked raw.writtenKeys seen.writtenKeys

theorem mixedGet_size (rt : Runtime) {raw : Value} {args : List Value} {keys : MixedKeys Key}
    {seen : MixedKeys Bytes} {used w : ℕ} {step : Bytes × MixedKeys Bytes}
    (hget : rt.commandToken raw = lit "GET") (hk : SameKeys keys seen)
    (h : mixedGet seen args none used = .ok (step, w)) :
    ∃ next, mixedCommandSize rt keys (raw::args) = some (step.1.length, next) ∧
      SameKeys next step.2 := by
  unfold mixedGet at h
  split at h
  · simp only [bind_ok_iff, unreservedMaybeBytes_ok_iff, require_ok_iff, ite_ok_iff,
      decline_ok_iff, and_false, false_or, compactBinary_ok_iff, pure_ok_iff] at h
    obtain ⟨_, _, ⟨-, rfl, rfl⟩, key, _, ⟨hkey, rfl⟩, hfree, _, _, ⟨-, rfl, rfl⟩, rfl, rfl⟩ := h
    obtain ⟨k, hraw, hkb⟩ := rawKey_of_binary hkey
    refine ⟨{ keys with readKeys := k::keys.readKeys }, ?_, hk.reads.cons hkb, hk.writes⟩
    simp [mixedCommandSize, hget, hraw, hk.writes.not_mem hkb hfree, wireSize_of_binary hkey]
    omega
  · cases h

theorem mixedSet_size (rt : Runtime) {raw : Value} {args : List Value} {keys : MixedKeys Key}
    {seen : MixedKeys Bytes} {used w : ℕ} {step : Bytes × MixedKeys Bytes}
    (hset : rt.commandToken raw = lit "SET") (hk : SameKeys keys seen)
    (h : mixedSet seen args none used = .ok (step, w)) :
    ∃ next, mixedCommandSize rt keys (raw::args) = some (step.1.length, next) ∧
      SameKeys next step.2 := by
  unfold mixedSet at h
  split at h
  · simp only [bind_ok_iff, unreservedMaybeBytes_ok_iff, require_ok_iff, ite_ok_iff,
      decline_ok_iff, and_false, false_or, compactBinary_ok_iff, pure_ok_iff] at h
    obtain ⟨_, _, ⟨-, rfl, rfl⟩, _, _, ⟨-, rfl, rfl⟩, key, _, ⟨hkey, rfl⟩, value, _,
      ⟨hvalue, rfl⟩, hfree, _, _, ⟨-, rfl, rfl⟩, _, _, ⟨-, rfl, rfl⟩, rfl, rfl⟩ := h
    rw [not_or] at hfree
    obtain ⟨k, hraw, hkb⟩ := rawKey_of_binary hkey
    refine ⟨{ keys with writtenKeys := k::keys.writtenKeys }, ?_, hk.reads,
      hk.writes.cons hkb⟩
    simp [mixedCommandSize, hset, hraw, hk.reads.not_mem hkb hfree.1,
      hk.writes.not_mem hkb hfree.2, wireSize_of_binary hkey, wireSize_of_binary hvalue]
    omega
  · cases h

theorem mixedCommand_size (rt : Runtime) {c : Command} {keys : MixedKeys Key}
    {seen : MixedKeys Bytes} {used w : ℕ} {step : Bytes × MixedKeys Bytes}
    (hk : SameKeys keys seen) (h : mixedCommand rt seen c none used = .ok (step, w)) :
    ∃ next, mixedCommandSize rt keys c = some (step.1.length, next) ∧
      SameKeys next step.2 := by
  unfold mixedCommand at h
  split at h
  · cases h
  · simp only [ite_ok_iff, decline_ok_iff, and_false, or_false] at h
    rcases h with ⟨hget, h⟩ | ⟨-, hset, h⟩
    · exact mixedGet_size rt hget hk h
    · exact mixedSet_size rt hset hk h

theorem mixedSizesFrom_eq (rt : Runtime) {commands : List Command} {keys : MixedKeys Key}
    {seen : MixedKeys Bytes} {used w size : ℕ} {parts : List Bytes} (hk : SameKeys keys seen)
    (h : mixedCommands rt seen commands none used = .ok (parts, w)) :
    mixedSizesFrom rt size keys commands = some (size+parts.flatten.length) := by
  induction commands generalizing keys seen used w size parts with
  | nil =>
    obtain ⟨rfl, rfl⟩ := pure_eq_ok h
    rfl
  | cons c cs ih =>
    simp only [mixedCommands, bind_ok_iff, pure_ok_iff] at h
    obtain ⟨step, _, hstep, rest, _, hrest, rfl, rfl⟩ := h
    obtain ⟨next, hsize, hnext⟩ := mixedCommand_size rt hk hstep
    simp [mixedSizesFrom, hsize, ih hnext hrest, Nat.add_assoc]

theorem mixed_size (rt : Runtime) (commands : List Command) (b : Bytes) (used w : ℕ)
    (h : compactMixedPipelinePayloadFromRaw rt commands none used = .ok (b, w)) :
    rawMixedPipelineSize rt commands = some b.length := by
  simp only [compactMixedPipelinePayloadFromRaw, bind_ok_iff, packPipelineHeader_ok_iff,
    pure_ok_iff] at h
  obtain ⟨_, _, ⟨-, rfl, rfl⟩, parts, _, hparts, rfl, rfl⟩ := h
  rw [rawMixedPipelineSize,
    mixedSizesFrom_eq rt ⟨by simp [Tracked], by simp [Tracked]⟩ hparts]
  simp [headerSize]
  omega

def Predicted (rt : Runtime) (spec : String × ℕ × (ℕ → List Command → Metered Err Bytes)) :
    Prop :=
  ∀ (mode : ℕ) (commands : List Command) (b : Bytes) (used w : ℕ),
    spec.2.2 mode commands none used = .ok (b, w) →
      rawStandardPipelineSize rt commands spec.1 = some b.length

theorem predicted (rt : Runtime) {name : String} (own : ℕ) {item : Command → Metered Err Bytes}
    (hitem : ∀ c used v b, item c none used = .ok (b, v) →
      standardCommandSize rt name c = some b.length) :
    Predicted rt (name, own, rawPipeline item) :=
  fun _ _ _ _ _ h => rawPipeline_size rt name hitem h

theorem predicted_keys (rt : Runtime) {name : String} (own : ℕ) (h : name ∈ keyNames) :
    Predicted rt (name, own, compactPipelineKeysPayloadFromRaw rt name) :=
  predicted rt own fun c used v b => keyCommand_size rt c used v b h

theorem predicted_pair (rt : Runtime) {name : String} (own : ℕ) (h : name ∈ pairNames) :
    Predicted rt (name, own, compactPipelineTwoBinaryPayloadFromRaw rt name) :=
  predicted rt own fun c used v b => twoBinaryCommand_size rt c used v b h

theorem predicted_range (rt : Runtime) {name : String} (own : ℕ)
    (h : name = "LRANGE" ∨ name = "ZRANGE") :
    Predicted rt (name, own, compactPipelineRangePayloadFromRaw rt name) :=
  predicted rt own fun c used v b => rangeCommand_size rt c used v b h

/-- Every standard encoder has the size predicted under its name. -/
theorem standard_size (rt : Runtime) : ∀ spec ∈ rawCompactPipelineSpecs rt, Predicted rt spec := by
  have pair : ∀ name ∈ pairNames, ∀ own,
      Predicted rt (name, own, compactPipelineTwoBinaryPayloadFromRaw rt name) :=
    fun name h own => predicted_pair rt own h
  simp only [pairNames, List.forall_mem_cons] at pair
  obtain ⟨hget, sismember, zscore, lpush, rpush, sadd, srem, zrem, publish, -⟩ := pair
  simp only [rawCompactPipelineSpecs, List.forall_mem_cons]
  refine ⟨predicted rt _ (setCommand_size rt), predicted_keys rt _ (by decide), hget _,
    predicted rt _ (hmgetCommand_size rt), predicted_keys rt _ (by decide),
    predicted_keys rt _ (by decide), sismember _, predicted_range rt _ (.inl rfl),
    predicted_range rt _ (.inr rfl), zscore _, predicted rt _ (hsetCommand_size rt), lpush _,
    rpush _, sadd _, srem _, predicted rt _ (zaddCommand_size rt), zrem _, publish _, ?_⟩
  simp

end FerricStore.RawPipelines
