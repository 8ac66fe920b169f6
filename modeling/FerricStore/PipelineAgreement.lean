import FerricStore.BasicCommands
import FerricStore.PipelineItems
import FerricStore.RawPipelineAdmission

/-!
# Raw and built pipelines agree

A command that a raw encoder accepts is accepted by the builder, and the item
encoder of its opcode gives the bytes the raw encoder gave. Over a batch the two
pipelines are then the same bytes.
-/

set_option autoImplicit false

namespace FerricStore.Pipelines
open Text Metered CompactBudget ValueCodec FlowCodec RawPipelines BasicCommands

variable (rt : Runtime) (rest : Str → List Value → Except Err ProtocolCommand)

theorem find_basicName {name : String} (h : name ∈ basicNames) :
    (basicNames.find? fun n => lit n = lit name) = some name := by
  fin_cases h <;> decide

theorem build_of_fields {name : String} {raw : Value} {args : List Value} {payload : Payload}
    (hname : rt.commandToken raw = lit name) (hmem : name ∈ basicNames)
    (harity : name ≠ "SET" → validateSpecializedCommandArity name args.length = .ok ())
    (hfields : basicFields rt name args = some (.ok payload)) :
    buildProtocolCommand rt rest (raw::args) = .ok ⟨opcode name, .fields payload, 1, 0⟩ := by
  simp only [buildProtocolCommand, hname, find_basicName hmem, hfields]
  by_cases hset : name = "SET"
  · simp [hset, bind, Except.bind]
  · simp [hset, harity hset, bind, Except.bind]

/-- The raw encoder of a command and the encoder of its built form emit the same. -/
def Agree (name : String) (item : Command → Metered Err Bytes) (encoder : PipelineItem) :
    Prop :=
  ∀ (c : Command) (used v : ℕ) (b : Bytes), item c none used = .ok (b, v) →
    ∃ built, buildProtocolCommand rt rest c = .ok built ∧ built.opcode = opcode name ∧
      builtItem (opcode name) encoder built none used = .ok (b, v)

theorem builtItem_ok {op : ℕ} {encoder : PipelineItem} {fields : Payload} {key : Value}
    {keyBytes b : Bytes} {used : ℕ} (hvalid : validText key)
    (hbytes : binaryOf key = some keyBytes)
    (h : encoder (("key", key)::fields) keyBytes none used = .ok (b, used)) :
    builtItem op encoder ⟨op, .fields (("key", key)::fields), 1, 0⟩ none used =
      .ok (b, used) := by
  have hkey : Payload.get (("key", key)::fields) "key" = key := rfl
  simp [builtItem, hkey, hvalid, hbytes, h]

theorem binaryFieldItem_ok {field : String} {payload : Payload} {arg : Value}
    {key value : Bytes} {used : ℕ} (hf : fieldsAre payload ["key", field] = true)
    (harg : payload.get field = arg) (hvalid : validText arg)
    (hvalue : binaryOf arg = some value) (hk : key.length ≤ u32Max)
    (hv : value.length ≤ u32Max) :
    binaryFieldItem field payload key none used =
      .ok (binaryWire key++binaryWire value, used) := by
  simp [binaryFieldItem, hf, harg, hvalid, hvalue, hk, hv]

theorem set_agree : Agree rt rest "SET" (setCommand rt) compactSetPipelineItem := by
  intro c used v b h
  unfold setCommand at h
  split at h
  · rename_i raw keyArg valueArg
    split_ifs at h with hname
    · simp [and_assoc] at h
      obtain ⟨hvk, key, hkey, hvv, value, hvalue, hk, hv, rfl, rfl⟩ := h
      have ht := commandToken_of_is rt (by decide) hname
      have hfields : basicFields rt "SET" [keyArg, valueArg] =
          some (.ok [("key", keyArg), ("value", valueArg)]) := rfl
      refine ⟨_, build_of_fields rt rest ht (by decide) (by simp) hfields, rfl, ?_⟩
      exact builtItem_ok hvk hkey (binaryFieldItem_ok rfl rfl hvv hvalue hk hv)
    · cases h
  · cases h

def keyOnlyNames : List String := ["GET", "HGETALL", "SMEMBERS"]

theorem keys_agree {name : String} (h : name ∈ keyOnlyNames) :
    Agree rt rest name (keyCommand rt name) compactKeyOnlyPipelineItem := by
  have hplain : plainName name := by fin_cases h <;> decide
  have hbasic : name ∈ basicNames := by fin_cases h <;> decide
  intro c used v b hc
  unfold keyCommand at hc
  split at hc
  · rename_i raw keyArg
    split_ifs at hc with hname
    · simp [and_assoc] at hc
      obtain ⟨hvk, key, hkey, hk, rfl, rfl⟩ := hc
      have ht := commandToken_of_is rt hplain hname
      have hfields : basicFields rt name [keyArg] = some (.ok [("key", keyArg)]) := by
        fin_cases h <;> rfl
      have harity : validateSpecializedCommandArity name 1 = .ok () := by
        fin_cases h <;> rfl
      refine ⟨_, build_of_fields rt rest ht hbasic (fun _ => harity) hfields, rfl, ?_⟩
      refine builtItem_ok hvk hkey ?_
      have hf : fieldsAre [("key", keyArg)] ["key"] = true := rfl
      simp [compactKeyOnlyPipelineItem, hf, hk]
    · cases hc
  · cases hc

/-- The field that holds the second binary, and whether the builder wraps it in a list. -/
theorem pair_agree {name : String} {encoder : PipelineItem} {payload : Value → Value → Payload}
    (hplain : plainName name) (hbasic : name ∈ basicNames)
    (harity : validateSpecializedCommandArity name 2 = .ok ())
    (hfields : ∀ key item, basicFields rt name [key, item] =
      some (.ok (("key", key)::payload key item)))
    (hitem : ∀ (keyArg itemArg : Value) (key item : Bytes) (used : ℕ), validText itemArg →
      binaryOf itemArg = some item → key.length ≤ u32Max → item.length ≤ u32Max →
      encoder (("key", keyArg)::payload keyArg itemArg) key none used =
        .ok (binaryWire key++binaryWire item, used)) :
    Agree rt rest name (twoBinaryCommand rt name) encoder := by
  intro c used v b hc
  unfold twoBinaryCommand at hc
  split at hc
  · rename_i raw keyArg itemArg
    split_ifs at hc with hname
    · simp [and_assoc] at hc
      obtain ⟨hvk, hvi, key, hkey, item, hi, hk, hl, rfl, rfl⟩ := hc
      have ht := commandToken_of_is rt hplain hname
      refine ⟨_, build_of_fields rt rest ht hbasic (fun _ => harity) (hfields keyArg itemArg),
        rfl, ?_⟩
      exact builtItem_ok hvk hkey (hitem keyArg itemArg key item _ hvi hi hk hl)
    · cases hc
  · cases hc

theorem fieldsAre_pair (field : String) (key item : Value) :
    fieldsAre [("key", key), (field, item)] ["key", field] = true := by
  by_cases h : "key" = field <;>
    simp [fieldsAre, Payload.fieldsWithin, Dict.contains, Dict.get?, h]

theorem get_pair {field : String} (h : field ≠ "key") (key item : Value) :
    Payload.get [("key", key), (field, item)] field = item := by
  simp [Payload.get, Dict.get?, h.symm]

theorem field_agree {name field : String} (hplain : plainName name) (hbasic : name ∈ basicNames)
    (hfield : field ≠ "key") (harity : validateSpecializedCommandArity name 2 = .ok ())
    (hfields : ∀ key item, basicFields rt name [key, item] =
      some (.ok [("key", key), (field, item)])) :
    Agree rt rest name (twoBinaryCommand rt name) (binaryFieldItem field) :=
  pair_agree rt rest hplain hbasic harity hfields fun keyArg itemArg _ _ _ hv hi hk hl =>
    binaryFieldItem_ok (fieldsAre_pair field keyArg itemArg) (get_pair hfield keyArg itemArg)
      hv hi hk hl

theorem list_agree {name field : String} (hplain : plainName name) (hbasic : name ∈ basicNames)
    (hfield : field ≠ "key") (harity : validateSpecializedCommandArity name 2 = .ok ())
    (hfields : ∀ key item, basicFields rt name [key, item] =
      some (.ok [("key", key), (field, .list [item])])) :
    Agree rt rest name (twoBinaryCommand rt name) (singleBinaryListPipelineEncoder field) := by
  refine pair_agree rt rest hplain hbasic harity hfields ?_
  intro keyArg itemArg key item used hv hi hk hl
  simp [singleBinaryListPipelineEncoder, fieldsAre_pair, get_pair hfield, hv, hi, hk, hl]

theorem basicFields_hset (key field value : Value) :
    basicFields rt "HSET" [key, field, value] =
      some (fieldValueMap.pairs "HSET" [] [field, value] >>= fun fields =>
        .ok [("key", key), ("fields", .dict fields)]) := by
  have hmap : fieldValueMap "HSET" [field, value] =
      fieldValueMap.pairs "HSET" [] [field, value] := by
    simp [fieldValueMap]
  rw [← hmap]
  rfl

theorem hset_agree : Agree rt rest "HSET" (hsetCommand rt) compactHsetPipelineItem := by
  intro c used v b h
  unfold hsetCommand at h
  split at h
  · rename_i raw keyArg fieldArg valueArg
    split_ifs at h with hname
    · simp [and_assoc] at h
      obtain ⟨hvk, hvf, hvv, key, hkey, field, hfield, value, hvalue, hk, hf, hv, rfl, rfl⟩ := h
      have ht := commandToken_of_is rt (by decide) hname
      obtain ⟨k, hraw, hkeyValue⟩ : ∃ k, basicFields rt "HSET" [keyArg, fieldArg, valueArg] =
          some (.ok [("key", keyArg), ("fields", .dict [(k, valueArg)])]) ∧
            Key.value k = fieldArg := by
        cases fieldArg with
        | str s => exact ⟨.str s, basicFields_hset rt keyArg _ valueArg, rfl⟩
        | bytes x => exact ⟨.bytes x, basicFields_hset rt keyArg _ valueArg, rfl⟩
        | _ => cases hfield
      refine ⟨_, build_of_fields rt rest ht (by decide) (fun _ => rfl) hraw, rfl, ?_⟩
      refine builtItem_ok hvk hkey ?_
      have hfs : fieldsAre [("key", keyArg), ("fields", .dict [(k, valueArg)])]
          ["key", "fields"] = true := rfl
      have hget : Payload.get [("key", keyArg), ("fields", .dict [(k, valueArg)])] "fields" =
          .dict [(k, valueArg)] := rfl
      simp [compactHsetPipelineItem, hfs, hget, hkeyValue, hvf, hvv, hfield, hvalue, hk, hf, hv]
    · cases h
  · cases h

theorem hmget_agree : Agree rt rest "HMGET" (hmgetCommand rt) compactHmgetPipelineItem := by
  intro c used v b h
  unfold hmgetCommand at h
  split at h
  · rename_i raw keyArg fieldArg fieldArgs
    split_ifs at h with hname
    · simp only [bind_ok_iff, unreservedMaybeBytes_ok_iff, require_ok_iff, encodeAll_ok_iff,
        packAll_ok_iff, packU32_ok_iff, compactBinary_ok_iff, pure_ok_iff] at h
      obtain ⟨_, _, ⟨hvk, rfl, rfl⟩, key, _, ⟨hkey, rfl⟩, _, _, ⟨hvf, rfl, rfl⟩, fields, _,
        ⟨hfields, rfl⟩, _, _, ⟨hk, rfl, rfl⟩, _, _, ⟨hn, rfl, rfl⟩, _, _, ⟨hl, rfl, rfl⟩, rfl,
        rfl⟩ := h
      have ht := commandToken_of_is rt (by decide) hname
      have hbuilt : basicFields rt "HMGET" (keyArg::fieldArg::fieldArgs) =
          some (.ok [("key", keyArg), ("fields", .list (fieldArg::fieldArgs))]) := rfl
      have harity : validateSpecializedCommandArity "HMGET"
          (keyArg::fieldArg::fieldArgs).length = .ok () := by
        simp [validateSpecializedCommandArity, specializedCommandArities, Dict.get?]
      refine ⟨_, build_of_fields rt rest ht (by decide) (fun _ => harity) hbuilt, rfl, ?_⟩
      refine builtItem_ok hvk hkey ?_
      have hfs : fieldsAre [("key", keyArg), ("fields", .list (fieldArg::fieldArgs))]
          ["key", "fields"] = true := rfl
      have hget : asList (Payload.get
          [("key", keyArg), ("fields", .list (fieldArg::fieldArgs))] "fields") =
          some (fieldArg::fieldArgs) := rfl
      simp only [compactHmgetPipelineItem, hfs, hget, if_true, bind_ok_iff, require_ok_iff,
        ite_ok_iff, encodeAll_ok_iff, packAll_ok_iff, packU32_ok_iff, compactBinary_ok_iff,
        pure_ok_iff]
      exact ⟨_, _, ⟨rfl, rfl⟩, .inr ⟨List.cons_ne_nil _ _, _, _, ⟨hvf, rfl, rfl⟩, fields, _,
        ⟨hfields, rfl⟩, _, _, ⟨hk, rfl, rfl⟩, _, _, ⟨hn, rfl, rfl⟩, _, _, ⟨hl, rfl, rfl⟩, rfl,
        rfl⟩⟩
    · cases h
  · cases h

theorem zaddItems_score {scoreArg : Value} {bits : BitVec 64}
    (h : rt.score scoreArg = some bits) :
    zaddItems.score rt scoreArg = .ok bits ∧ rt.score (.float bits) = some bits := by
  have hfinite : ∀ v, (rt.toFloat v).toOption.filter isFinite = some bits →
      rt.toFloat v = .ok bits ∧ isFinite bits = true := by
    intro v hv
    obtain ⟨hok, hfin⟩ := Option.filter_eq_some_iff.mp hv
    cases hf : rt.toFloat v with
    | error e =>
      rw [hf] at hok
      cases hok
    | ok x =>
      rw [hf] at hok
      cases hok
      exact ⟨rfl, hfin⟩
  have hfloat : isFinite bits = true → rt.score (.float bits) = some bits := by
    intro hb
    exact Option.filter_eq_some_iff.mpr ⟨rfl, hb⟩
  cases scoreArg with
  | bool x => cases h
  | _ =>
    simp only [Runtime.score] at h
    obtain ⟨hok, hfin⟩ := hfinite _ h
    refine ⟨?_, hfloat hfin⟩
    simp [zaddItems.score, hok, hfin]

theorem zadd_agree : Agree rt rest "ZADD" (zaddCommand rt) (compactZaddPipelineItem rt) := by
  intro c used v b h
  unfold zaddCommand at h
  split at h
  · rename_i raw keyArg scoreArg memberArg
    split_ifs at h with hname
    · simp [and_assoc] at h
      obtain ⟨hvk, hvm, key, hkey, member, hmember, score, hscore, hk, hm, rfl, rfl⟩ := h
      have ht := commandToken_of_is rt (by decide) hname
      obtain ⟨hbuild, hagain⟩ := zaddItems_score rt hscore
      have hitems : zaddItems rt [scoreArg, memberArg] =
          .ok [.list [.float score, memberArg]] := by
        simp [zaddItems, zaddItems.pairs, hbuild, bind, Except.bind]
      have hfields : basicFields rt "ZADD" [keyArg, scoreArg, memberArg] =
          some (.ok [("key", keyArg), ("items", .list [.list [.float score, memberArg]])]) := by
        have hdef : basicFields rt "ZADD" [keyArg, scoreArg, memberArg] =
          some (zaddItems rt [scoreArg, memberArg] >>= fun items =>
            .ok [("key", keyArg), ("items", .list items)]) := rfl
        rw [hdef, hitems]
        rfl
      refine ⟨_, build_of_fields rt rest ht (by decide) (fun _ => rfl) hfields, rfl, ?_⟩
      refine builtItem_ok hvk hkey ?_
      have hfs : fieldsAre [("key", keyArg),
          ("items", .list [.list [.float score, memberArg]])] ["key", "items"] = true := rfl
      have hget : Payload.get [("key", keyArg),
          ("items", .list [.list [.float score, memberArg]])] "items" =
          .list [.list [.float score, memberArg]] := rfl
      simp [compactZaddPipelineItem, hfs, hget, hagain, hvm, hmember, hk, hm]
    · cases h
  · cases h

theorem rawInt_compact {v : Value} {n : ℤ}
    (h : ((rt.rawInt v).bind fun m => compactI64 (.int m)) = some n) :
    rt.rawInt v = some n ∧ compactI64 (.int n) = some n := by
  obtain ⟨m, hm, hc⟩ := Option.bind_eq_some_iff.mp h
  have hn : m = n := by
    simp only [compactI64] at hc
    split_ifs at hc
    cases hc
    rfl
  subst hn
  exact ⟨hm, hc⟩

theorem rangeFields_ok {name : String} {key startArg stopArg : Value} {start stop : ℤ}
    {options : List Value} (hs : rt.rawInt startArg = some start)
    (ht : rt.rawInt stopArg = some stop) :
    rangeFields rt name (key::startArg::stopArg::options) =
      .ok [("key", key), ("start", .int start), ("stop", .int stop)] := by
  simp [rangeFields, requireArg, intArg, hs, ht, bind, Except.bind]

/-- What a range command that the raw encoder accepts looks like. -/
theorem rangeCommand_ok {name : String} {c : Command} {used v : ℕ} {b : Bytes}
    (h : rangeCommand rt name c none used = .ok (b, v)) :
    ∃ raw keyArg startArg stopArg options scores key start stop,
      c = raw::keyArg::startArg::stopArg::options ∧ rt.commandToken raw = lit name ∧
      withScores rt name options none used = .ok (scores, used) ∧ validText keyArg ∧
      binaryOf keyArg = some key ∧ rt.rawInt startArg = some start ∧
      compactI64 (.int start) = some start ∧ rt.rawInt stopArg = some stop ∧
      compactI64 (.int stop) = some stop ∧ key.length ≤ u32Max ∧ v = used ∧
      b = binaryWire key++(i64 start++(i64 stop++
        (if name = "ZRANGE" then [if scores then 1 else 0] else []))) := by
  unfold rangeCommand at h
  split at h
  · rename_i raw keyArg startArg stopArg options
    by_cases hname : rt.commandToken raw = lit name
    · rw [if_pos hname] at h
      simp only [bind_ok_iff, unreservedMaybeBytes_ok_iff, require_ok_iff,
        compactBinary_ok_iff, pure_ok_iff] at h
      obtain ⟨scores, _, hscores, _, _, ⟨hvk, rfl, rfl⟩, key, _, ⟨hkey, rfl⟩, start, _,
        ⟨hstart, rfl⟩, stop, _, ⟨hstop, rfl⟩, _, _, ⟨hk, rfl, rfl⟩, rfl, rfl⟩ := h
      obtain ⟨hs, hsc⟩ := rawInt_compact rt hstart
      obtain ⟨ht, htc⟩ := rawInt_compact rt hstop
      obtain ⟨-, rfl⟩ := withScores_length rt hscores
      exact ⟨raw, keyArg, startArg, stopArg, options, scores, key, start, stop, rfl, hname,
        hscores, hvk, hkey, hs, hsc, ht, htc, hk, rfl, rfl⟩
    · rw [if_neg hname] at h
      cases h
  · cases h

theorem lrange_agree :
    Agree rt rest "LRANGE" (rangeCommand rt "LRANGE") compactLrangePipelineItem := by
  intro c used v b h
  obtain ⟨raw, keyArg, startArg, stopArg, options, scores, key, start, stop, rfl, hname, hsc,
    hvk, hkey, hs, hsi, ht, hti, hk, rfl, rfl⟩ := rangeCommand_ok rt h
  obtain ⟨hlen, -⟩ := withScores_length rt hsc
  obtain rfl : options = [] := by simpa using hlen
  have hfields : basicFields rt "LRANGE" [keyArg, startArg, stopArg] =
      some (.ok [("key", keyArg), ("start", .int start), ("stop", .int stop)]) :=
    congrArg some (rangeFields_ok rt hs ht)
  refine ⟨_, build_of_fields rt rest hname (by decide) (fun _ => rfl) hfields, rfl, ?_⟩
  refine builtItem_ok hvk hkey ?_
  have hfs : fieldsAre [("key", keyArg), ("start", .int start), ("stop", .int stop)]
      ["key", "start", "stop"] = true := rfl
  have hstart : Payload.get [("key", keyArg), ("start", .int start), ("stop", .int stop)]
      "start" = .int start := rfl
  have hstop : Payload.get [("key", keyArg), ("start", .int start), ("stop", .int stop)]
      "stop" = .int stop := rfl
  simp [compactLrangePipelineItem, hfs, hstart, hstop, hsi, hti, hk]

/-- The fields of a built range, with the option of the raw command. -/
def zrangeFields (keyArg : Value) (start stop : ℤ) (scores : Bool) : Payload :=
  [("key", keyArg), ("start", .int start), ("stop", .int stop)]++
    if scores then [("withscores", .bool true)] else []

theorem zrangeOptions_ok {options : List Value} {scores : Bool} {used : ℕ} {keyArg : Value}
    {start stop : ℤ} (h : withScores rt "ZRANGE" options none used = .ok (scores, used)) :
    zrangeOptions rt [("key", keyArg), ("start", .int start), ("stop", .int stop)] options =
      .ok (zrangeFields keyArg start stop scores) := by
  unfold withScores at h
  split at h
  · obtain ⟨rfl, -⟩ := pure_eq_ok h
    rfl
  · simp [ite_ok_iff] at h
    obtain ⟨ht, rfl⟩ := h
    rw [zrangeOptions, if_pos ht]
    rfl
  · cases h

theorem zrange_agree :
    Agree rt rest "ZRANGE" (rangeCommand rt "ZRANGE") compactZrangePipelineItem := by
  intro c used v b h
  obtain ⟨raw, keyArg, startArg, stopArg, options, scores, key, start, stop, rfl, hname, hsc,
    hvk, hkey, hs, hsi, ht, hti, hk, rfl, rfl⟩ := rangeCommand_ok rt h
  have hfields : basicFields rt "ZRANGE" (keyArg::startArg::stopArg::options) =
      some (.ok (zrangeFields keyArg start stop scores)) := by
    have hdef : basicFields rt "ZRANGE" (keyArg::startArg::stopArg::options) =
      some (rangeFields rt "ZRANGE" (keyArg::startArg::stopArg::options) >>= fun payload =>
        zrangeOptions rt payload options) := rfl
    rw [hdef, rangeFields_ok rt hs ht, except_ok_bind, zrangeOptions_ok rt hsc]
  have harity : validateSpecializedCommandArity "ZRANGE"
      (keyArg::startArg::stopArg::options).length = .ok () := by
    simp [validateSpecializedCommandArity, specializedCommandArities, Dict.get?]
  refine ⟨_, build_of_fields rt rest hname (by decide) (fun _ => harity) hfields, rfl, ?_⟩
  refine builtItem_ok hvk hkey ?_
  cases scores with
  | false =>
    simp [compactZrangePipelineItem, Payload.fieldsWithin, Payload.get, Dict.get?, hsi, hti, hk,
      Value.truthy]
  | true =>
    simp [compactZrangePipelineItem, Payload.fieldsWithin, Payload.get, Dict.get?, hsi, hti, hk,
      Value.truthy]

end FerricStore.Pipelines
