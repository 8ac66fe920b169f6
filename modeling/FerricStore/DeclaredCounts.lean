import FerricStore.ArgumentCounts
import FerricStore.CollectionCountsExact
import FerricStore.MutationRoundTrip

/-!
# The declared counts are the numbers of items

A command declares how many results it expects twice, in the arguments and in the body
made of them. The counts agree with the items it has, unless a binary in front of the
count of a compact body has the length that stands for null.
-/

set_option autoImplicit false

namespace FerricStore.CollectionCounts
open Text BasicCommands FlowOptions FlowCommands FlowManyPayloads CompactBudget FlowCodec Cursor
open ValueCodec Metered

variable {rt : Runtime}

theorem get_of_get? {p : Payload} {k : String} {v : Value} (h : Dict.get? p k = some v) :
    p.get k = v := by
  rw [Payload.get, h, Option.getD_some]

theorem requestFields_items {bulk : Bulk} {args : List Value} {fields : Payload}
    (h : requestFields rt bulk args = .ok fields) :
    ∃ items, fields.get bulk.listField = .list items ∧ (bulk = .mget → items = args) ∧
      (bulk = .valueMget → items = (splitFlowValueMget rt args).1) ∧
      (bulk = .createMany → flowCreateManyItemCount rt args = .ok (some items.length)) := by
  cases bulk with
  | createMany =>
    obtain ⟨items, hlisted, hcount⟩ := flowCreateManyItemCount_ok h
    exact ⟨items, get_of_get? hlisted.get, nofun, nofun, fun _ => hcount⟩
  | completeMany | retryMany | failMany =>
    obtain ⟨items, hlisted⟩ := claimedMany_listed h
    exact ⟨items, get_of_get? hlisted.get, nofun, nofun, nofun⟩
  | transitionMany =>
    obtain ⟨fromState, -, h⟩ := except_bind_eq_ok h
    obtain ⟨toState, -, h⟩ := except_bind_eq_ok h
    obtain ⟨read, hread, h⟩ := except_bind_eq_ok h
    cases h
    obtain ⟨items, hlisted⟩ := fencedMany_listed hread
    have hkeys : "items" ∉ [("from_state", fromState), ("to_state", toState)].map Prod.fst := by simp
    have hget := FlowRouting.get?_update_options hlisted.nodup hkeys
    rw [hlisted.get] at hget
    exact ⟨items, get_of_get? hget, nofun, nofun, nofun⟩
  | cancelMany =>
    obtain ⟨items, hlisted⟩ := fencedMany_listed h
    exact ⟨items, get_of_get? hlisted.get, nofun, nofun, nofun⟩
  | mget =>
    simp only [requestFields] at h
    split_ifs at h
    · cases h
    · cases h
      exact ⟨args, rfl, fun _ => rfl, nofun, nofun⟩
  | valueMget =>
    cases h
    exact ⟨_, rfl, nofun, fun _ => rfl, nofun⟩

theorem fields_count {bulk : Bulk} {fields : Payload} {items : List Value}
    (hitems : fields.get bulk.listField = .list items) :
    expectedPayloadCollectionItems (opcode bulk.name) (.fields fields) = none ∨
      expectedPayloadCollectionItems (opcode bulk.name) (.fields fields) = some items.length := by
  have hpipeline : opcode bulk.name ≠ opcode "PIPELINE" := by
    cases bulk <;> simp [Bulk.name, counted_opcodes]
  rw [expectedPayloadCollectionItems, expectedFieldItems, if_neg hpipeline]
  split_ifs with hmany
  · have hfield : bulk.listField = "items" := by
      rw [manyOpcodes_eq] at hmany
      cases bulk with
      | mget => simp [Bulk.name, counted_opcodes] at hmany
      | valueMget => simp [Bulk.name, counted_opcodes] at hmany
      | _ => rfl
    rw [hfield] at hitems
    exact .inr (by rw [hitems]; rfl)
  · exact .inl rfl

theorem commandExec_count {normalize : Value → Except Err (Option Value)} {name : String}
    {args : List Value} {cmd : ProtocolCommand}
    (h : commandExecProtocolCommand rt normalize name args = .ok cmd) :
    expectedPayloadCollectionItems cmd.opcode cmd.payload = none ∧
      ∀ b, cmd.payload ≠ .raw b := by
  have hcode : opcode "COMMAND_EXEC" ≠ opcode "PIPELINE" ∧
      opcode "COMMAND_EXEC" ∉ manyOpcodes := by
    simp [counted_opcodes, manyOpcodes_eq]
  have hnone (fields : Payload) :
      expectedPayloadCollectionItems (opcode "COMMAND_EXEC") (.fields fields) = none := by
    rw [expectedPayloadCollectionItems, expectedFieldItems, if_neg hcode.1, if_neg hcode.2]
  unfold commandExecProtocolCommand at h
  split at h
  · split_ifs at h
    · obtain ⟨context, -, h⟩ := except_bind_eq_ok h
      cases h
      exact ⟨hnone _, fun b hb => (by cases hb)⟩
    · cases h
      exact ⟨hnone _, fun b hb => (by cases hb)⟩
  · cases h
    exact ⟨hnone _, fun b hb => (by cases hb)⟩

theorem command_count {bulk : Bulk} {nameArg : Value} {args items : List Value}
    (hname : rt.commandToken nameArg = lit bulk.name)
    (hkeys : bulk = .mget → items = args)
    (hrefs : bulk = .valueMget → items = (splitFlowValueMget rt args).1)
    (hcreate : bulk = .createMany → flowCreateManyItemCount rt args = .ok (some items.length)) :
    ∃ c, expectedCommandCollectionItems rt (nameArg::args) = .ok c ∧
      (c = none ∨ c = some items.length) := by
  simp only [expectedCommandCollectionItems, hname]
  cases bulk with
  | mget =>
    rw [hkeys rfl]
    exact ⟨_, rfl, .inr rfl⟩
  | valueMget =>
    rw [hrefs rfl]
    exact ⟨_, rfl, .inr rfl⟩
  | createMany => exact ⟨_, hcreate rfl, .inr rfl⟩
  | _ => exact ⟨none, rfl, .inl rfl⟩

/-- One flow to cancel, in a partition of its own. -/
def cancelBatch (partition : Value) : List Value :=
  [partition, .str (lit "NOW"), .int 5, .str (lit "ITEMS"), .str (lit "a"), .int 1]

def cancelItem : Value := .dict [entry "id" (.str (lit "a")), entry "fencing_token" (.int 1)]

def cancelFields (partition : Value) : Payload :=
  [("now_ms", .int 5), ("partition_key", partition), ("items", .list [cancelItem])]

theorem plan_step {rt : Runtime} {v : Value} {rest : List Value} {valid : List Bool}
    {first : Bool} (hrest : flowOptionPlan rt rest = .ok valid)
    (hfirst : optionValid rt rest valid (token rt v) = .ok first) :
    flowOptionPlan rt (v::rest) = .ok (first::valid) := by
  rw [flowOptionPlan, hrest, except_ok_bind, hfirst, except_ok_bind]

theorem letter_token : token Runtime.ascii (.str (lit "a")) = none := by
  have hupper : Runtime.ascii.upperText (lit "a") = lit "A" := by decide +kernel
  simp only [token]
  split_ifs
  · rfl
  · simp [hupper, lit_inj, flowOptionTokens, flowOptionFieldNames]

def cancelOption : Emitted := ⟨"NOW", [.int 5]⟩

theorem cancelOption_sound : (Group.field "NOW" (.int 5) "now_ms" (.int 5)).Sound Runtime.ascii :=
  MutationArguments.plain_sound Runtime.ascii (by simp [MutationArguments.plainKeywords]) (.int 5)

theorem cancelOption_fits : cancelOption.Fits := cancelOption_sound.1

theorem cancelTail_plan : flowOptionPlan Runtime.ascii (cancelBatch .none).tail =
    .ok [true, false, true, false, false, true] := by
  have hitems : flowOptionPlan Runtime.ascii [.str (lit "a"), .int 1] =
      .ok [false, false, true] := plan_step (plan_step rfl rfl) (by rw [letter_token]; rfl)
  have hmarker : token Runtime.ascii (.str (lit "ITEMS")) = some "ITEMS" :=
    token_lit _ (by simp [flowOptionTokens, flowOptionFieldNames])
  have hnow : token Runtime.ascii (.str (lit "NOW")) = some "NOW" :=
    token_lit _ cancelOption_fits.known
  refine plan_step (plan_step (plan_step hitems ?_) rfl) ?_
  · rw [hmarker]
    simp [optionValid, itemMarkers]
  · rw [hnow]
    simp [optionValid, itemMarkers, suffix, fixedWidth, flowThreeValueOptions]

theorem cancelTail_marker : findItemMarker Runtime.ascii 0 (cancelBatch .none).tail
    [true, false, true, false, false, true] = .ok (some 2) := by
  have hfits : ∀ e ∈ [cancelOption], e.Fits := by
    intro e he
    rw [List.mem_singleton.mp he]
    exact cancelOption_fits
  exact findItemMarker_emissions hfits (List.mem_cons_self) cancelTail_plan

theorem cancelTail_options : optionMap Runtime.ascii false [.str (lit "NOW"), .int 5] =
    .ok [("now_ms", .int 5)] := by
  have hsound : ∀ g ∈ [Group.field "NOW" (.int 5) "now_ms" (.int 5)], g.Sound Runtime.ascii := by
    intro g hg
    rw [List.mem_singleton.mp hg]
    exact cancelOption_sound
  have hnow : token Runtime.ascii (.str (lit "NOW")) = some "NOW" :=
    token_lit _ cancelOption_fits.known
  have hquiet : Quiet Runtime.ascii [.str (lit "NOW"), .int 5] := by
    refine (plan_ok_iff _ _).mp ⟨[true, false, true], plan_step (plan_step rfl rfl) ?_⟩
    rw [hnow]
    simp [optionValid, itemMarkers, suffix, fixedWidth, flowThreeValueOptions]
  have hflat : flat (emittedAll [Group.field "NOW" (.int 5) "now_ms" (.int 5)]) =
      [.str (lit "NOW"), .int 5] := rfl
  have hmap := optionMap_groups hsound (List.nodup_singleton _) (by simp [Group.target])
    (hflat ▸ hquiet)
  rw [hflat] at hmap
  exact hmap

theorem cancelBatch_fields {s : Str} (hs : maxFlowOptionTokenBytes < s.length)
    (hmixed : Runtime.ascii.commandToken (.str s) ≠ lit "MIXED") :
    requestFields Runtime.ascii .cancelMany (cancelBatch (.str s)) = .ok (cancelFields (.str s)) := by
  have htoken : token Runtime.ascii (.str s) = none := by
    rw [token, if_pos hs]
  have hplan : flowOptionPlan Runtime.ascii (cancelBatch (.str s)) =
      .ok [false, true, false, true, false, false, true] := by
    refine plan_step cancelTail_plan ?_
    rw [htoken]
    rfl
  have hdrop : (cancelBatch (.str s)).drop 1 = (cancelBatch .none).tail := rfl
  have hfind : findItemToken Runtime.ascii (cancelBatch (.str s)) 1 = .ok 3 := by
    rw [findItemToken, hplan, except_ok_bind, hdrop, List.drop_succ_cons, List.drop_zero,
      cancelTail_marker, except_ok_bind]
  have htake : ((cancelBatch (.str s)).take 3).drop 1 = [.str (lit "NOW"), .int 5] := rfl
  have hrequire : requireArg (cancelBatch (.str s)) 0 "FLOW.CANCEL_MANY" = .ok (.str s) := rfl
  have htext : Runtime.ascii.text (.str s) = .ok s := rfl
  have hoptions : manyOptions Runtime.ascii "FLOW.CANCEL_MANY" (cancelBatch (.str s)) =
      .ok (Runtime.ascii.commandToken (.str s), [("now_ms", .int 5)], 3) := by
    rw [manyOptions, hrequire, except_ok_bind, htext, except_ok_bind, hfind, except_ok_bind,
      htake, cancelTail_options, except_ok_bind]
  have hitems : parseFencedItems ((cancelBatch (.str s)).drop 4) false false =
      .ok [cancelItem] := by
    change parseFencedItems [.str (lit "a"), .int 1] false false = _
    simp [parseFencedItems, cut, slices, fencedItem, bind, Except.bind, cancelItem]
  rw [requestFields, flowFencedManyPayload, hoptions, except_ok_bind]
  simp only [hmixed, decide_false]
  rw [hitems, except_ok_bind]
  rfl

theorem cancelItem_encodes (used : ℕ) :
    ∃ part w, cancelManyItem cancelItem none used = .ok (part, w) := by
  have hdict : asDict cancelItem = some [entry "id" (.str (lit "a")),
    entry "fencing_token" (.int 1)] := rfl
  simp only [cancelManyItem, hdict, require]
  exact ⟨_, _, rfl⟩

theorem cancelFields_encodes {s : Str} {b : Bytes} (hb : Text.encode s = some b)
    (hlen : b.length ≤ u32Max) :
    ∃ body w, compactFlowCancelManyPayload Runtime.ascii (cancelFields (.str s)) none 0 =
      .ok (body, w) := by
  have hvalid : validText (.str s) = true := by
    unfold Text.encode at hb
    split_ifs at hb with he
    exact he
  have hoptional : optionalBinaryOf (.str s) = some (some b) := by
    simp only [optionalBinaryOf, binaryOf, hb]
    rfl
  have hguard : (cancelFields (.str s)).fieldsWithin
      ["partition_key", "now_ms", "independent", "items", "return"] = true := rfl
  have hnow : compactI64 ((cancelFields (.str s)).get "now_ms") = some 5 := rfl
  have hreturn : ((cancelFields (.str s)).get "return").isNone = true := rfl
  have hkey : (cancelFields (.str s)).get "partition_key" = .str s := rfl
  have hitems : asList ((cancelFields (.str s)).get "items") = some [cancelItem] := rfl
  have hwithin : withinU32 (some b) := by
    rintro _ ⟨⟩
    exact hlen
  obtain ⟨part, w, hpart⟩ := cancelItem_encodes (14+wireSize (some b))
  have hparts : each cancelManyItem [cancelItem] none (14+wireSize (some b)) = .ok ([part], w) := by
    rw [each, bind_of_ok hpart]
    rfl
  simp only [compactFlowCancelManyPayload, bind_ok_iff, guardFields_ok_iff, require_ok_iff,
    reserve_ok_iff, okReturn_ok_iff, boundedOptionalBytes_ok_iff, reserveIf_ok_iff,
    compactOptionalBinary_ok_iff, packU32_ok_iff, pure_ok_iff, hguard, hnow, hreturn, hkey,
    hitems, hvalid, hoptional]
  refine ⟨_, w, (), 0, ⟨trivial, rfl⟩, 5, 0, ⟨rfl, rfl⟩, _, 0, ⟨rfl, rfl⟩, (), 14, rfl, _, 14,
    ⟨.inl trivial, rfl, rfl⟩, _, _, ⟨trivial, rfl, rfl⟩, _, _, ⟨rfl, rfl⟩, (), _, rfl, _, _,
    ⟨hwithin, rfl, rfl⟩, _, _, ⟨by decide, rfl, rfl⟩, _, _, hparts, rfl, rfl⟩

/-- A key of so many letters. -/
def letters (n : ℕ) : Str := List.replicate n 0x61

theorem letters_encode (n : ℕ) : Text.encode (letters n) = some (List.replicate n 0x61) := by
  have hvalid : encodable (letters n) = true := by
    have hpoint : isSurrogate 0x61 = false := by decide +kernel
    rw [encodable, letters, List.all_replicate, hpoint]
    simp
  have hutf8 : utf8 (letters n) = List.replicate n 0x61 := by
    have hpoint : utf8Point 0x61 = [0x61] := rfl
    rw [utf8, letters, List.flatMap_replicate, hpoint, List.flatten_replicate_singleton]
  rw [Text.encode, if_pos hvalid, hutf8]

theorem letters_token {n : ℕ} (hn : 5 < n) :
    Runtime.ascii.commandToken (.str (letters n)) ≠ lit "MIXED" := by
  intro h
  have hascii : isAscii (letters n) = true := by
    rw [isAscii, letters, List.all_replicate]
    simp
  simp only [Runtime.commandToken, Runtime.str, Runtime.upperText, hascii, if_true] at h
  have hlength := congrArg List.length h
  rw [List.length_map, letters, List.length_replicate,
    show (lit "MIXED").length = 5 from rfl] at hlength
  omega

theorem cancelFields_partition {s : Str} {b : Bytes} (hb : Text.encode s = some b) :
    optionalField ((cancelFields (.str s)).get "partition_key") = some b := by
  change (optionalBinaryOf (.str s)).join = some b
  simp only [optionalBinaryOf, binaryOf, hb]
  rfl

/-- A key of the null length is taken for no key, and its text for the count. -/
theorem nullLength_count (c : CancelMany) (h : c.partition = some (List.replicate nullU32 0x61)) :
    expectedManyItems (opcode "FLOW.CANCEL_MANY") c.wire = some 0x61616161 := by
  have hsplit : List.replicate nullU32 (0x61 : UInt8) =
      List.replicate 9 0x61++(List.replicate 4 0x61++List.replicate (nullU32-13) 0x61) := by
    rw [List.replicate_append_replicate, List.replicate_append_replicate]
    rfl
  have hkind : c.wire.head? ∈ terminalMarkers.map some := by
    rw [CancelMany.wire, List.head?_cons]
    cases c.okOnSuccess <;> decide
  have hstart := advance_byte (Suffix.start c.wire)
  rw [h, optionalWire, binaryWire, List.length_replicate, List.append_assoc] at hstart
  have hskip : skipBinary c.wire 1 = some 5 := by
    rw [skipBinary, if_neg (available_u32 hstart), u32At_eq hstart (by decide), if_pos rfl]
  have hkey := hstart.advance
  rw [u32_length, hsplit, List.append_assoc] at hkey
  have hcount := hkey.advance
  rw [List.append_assoc] at hcount
  have hread : readCount c.wire 14 = some 0x61616161 := by
    have havailable := hcount.available
    have hslice := hcount.slice_eq
    simp only [List.length_replicate] at havailable hslice
    rw [readCount, if_neg (by omega), u32At, hslice]
    rfl
  rw [expectedManyItems, if_neg fun h => absurd h.1 (by simp [counted_opcodes]),
    if_pos ⟨by simp [counted_opcodes, terminalOpcodes_eq], hkind⟩, terminalCount, hskip,
    Option.bind_eq_bind, Option.bind_some, if_neg (by simp [counted_opcodes])]
  exact hread

theorem cancelBatch_build {s : Str} {b : Bytes} (hs : maxFlowOptionTokenBytes < s.length)
    (hmixed : Runtime.ascii.commandToken (.str s) ≠ lit "MIXED")
    (hb : Text.encode s = some b) (hlen : b.length ≤ u32Max) :
    buildBulk Runtime.ascii unboundedPolicy (fun _ => .ok none) .cancelMany
        (cancelBatch (.str s)) =
      .ok ⟨opcode "FLOW.CANCEL_MANY", .raw (cancelManyOf (cancelFields (.str s))).wire, 1,
        flagCustomPayload⟩ := by
  obtain ⟨body, w, hbody⟩ := cancelFields_encodes hb hlen
  obtain ⟨rfl, -, -⟩ := cancelMany_spec Runtime.ascii _ _ _ hbody
  have hrun : runPolicy unboundedPolicy (compactBody Runtime.ascii (cancelFields (.str s))
      .cancelMany (cancelBatch (.str s))) =
        .ok (some (cancelManyOf (cancelFields (.str s))).wire) := by
    simp only [runPolicy, unboundedPolicy, compactBody, hbody, if_true, finish]
  rw [buildBulk, cancelBatch_fields hs hmixed, except_ok_bind, hrun, except_ok_bind]
  rfl

theorem miscounted {s : Str} (hb : Text.encode s = some (List.replicate nullU32 0x61)) :
    expectedPayloadCollectionItems (opcode "FLOW.CANCEL_MANY")
      (.raw (cancelManyOf (cancelFields (.str s))).wire) = some 0x61616161 := by
  rw [manyItems_raw (by simp [counted_opcodes, manyOpcodes_eq])]
  exact nullLength_count _ (cancelFields_partition hb)

theorem letters_long {n : ℕ} (hn : 40 ≤ n) : maxFlowOptionTokenBytes < (letters n).length := by
  have hmax : maxFlowOptionTokenBytes < 40 := by decide +kernel
  rw [letters, List.length_replicate]
  omega

end FerricStore.CollectionCounts
