import FerricStore.FlowOptionGrammar
import FerricStore.MutationRoundTrip
import FerricStore.RawFlowPipelines
import FerricStore.Utf8

/-!
# Raw Flow parsers

Three commands have parsers of their own for batches, which read their options as pairs of a
name and a value. A parser knows a few names, refuses any other, and keeps of each option
what the last pair with its name gave.
-/

set_option autoImplicit false

namespace FerricStore.RawFlowParsers
open Text Metered CompactBudget FlowCodec FlowOptions FlowCommands BasicCommands MutationArguments

section Parsers

variable (rt : Runtime) (isUpper : Str → Bool)

/-- `token if isinstance(token, str) and token.isupper() else _command_name(token)`, with
`str.isupper` as `isUpper`. -/
def optionName : Value → Str
  | .str s => if isUpper s then s else rt.commandToken (.str s)
  | v => rt.commandToken v

/-- `_compact_i64(_raw_int(value))`. -/
def rawI64 (v : Value) : Option ℤ := (rt.rawInt v).bind fun n => compactI64 (.int n)

/-- `_optional_bytes`: the outer `none` is the result `False`. -/
def optionalBytes : Value → Metered Err (Option (Option Bytes))
  | .none => pure (some none)
  | v => do
    let encoded ← unreservedMaybeBytes v
    pure (encoded.map some)

/-- The arguments from an option on, as the loops index them. -/
def pairsOf : List Value → List (Value × Value)
  | option::value::rest => (option, value)::pairsOf rest
  | _ => []

structure StepOptions where
  fencingToken : Option ℤ := none
  leaseMs : Option ℤ := none
  nowMs : Option ℤ := none
  partitionKey : Option (Option Bytes) := some none
  returnMode : Option Bytes := none

def stepOption (name : Str) (value : Value) (o : StepOptions) : Metered Err StepOptions :=
  if name = lit "FENCING" then pure { o with fencingToken := rawI64 rt value }
  else if name = lit "LEASE_MS" then pure { o with leaseMs := rawI64 rt value }
  else if name = lit "NOW" then pure { o with nowMs := rawI64 rt value }
  else if name = lit "PARTITION" then do
    let key ← optionalBytes value
    pure { o with partitionKey := key }
  else if name = lit "RETURN" then do
    let rawReturn ← require (← unreservedMaybeBytes value)
    if upperBytes rawReturn = utf8 (lit "JOBS_COMPACT") ∨
        upperBytes rawReturn = utf8 (lit "JOB_COMPACT") then
      pure { o with returnMode := some (utf8 (lit "JOBS_COMPACT")) }
    else decline
  else decline

/-- The loop over the options of a parser. -/
def readOptions {σ : Type} (step : Str → Value → σ → Metered Err σ) :
    List (Value × Value) → σ → Metered Err σ
  | [], o => pure o
  | (option, value)::pairs, o => do
    let o ← step (optionName rt isUpper option) value o
    readOptions step pairs o

structure StepContinue where
  flowId : Bytes
  leaseToken : Bytes
  fromState : Bytes
  toState : Bytes
  partitionKey : Option Bytes
  fencingToken : ℤ
  leaseMs : ℤ
  nowMs : ℤ
  returnMode : Option Bytes

/-- `_parse_compact_flow_step_continue_raw`. -/
def parseStepContinueRaw : Command → Metered Err StepContinue
  | raw::idArg::leaseArg::fromArg::toArg::options =>
    if options.length < 6 ∨ options.length % 2 ≠ 0 then decline
    else if !rt.commandIs "FLOW.STEP_CONTINUE" raw then decline
    else do
      let flowId ← unreservedMaybeBytes idArg
      let leaseToken ← unreservedMaybeBytes leaseArg
      let fromState ← unreservedMaybeBytes fromArg
      let toState ← unreservedMaybeBytes toArg
      let o ← readOptions rt isUpper (stepOption rt) (pairsOf options) {}
      pure ⟨← require flowId, ← require leaseToken, ← require fromState, ← require toState,
        ← require o.partitionKey, ← require o.fencingToken, ← require o.leaseMs,
        ← require o.nowMs, o.returnMode⟩
  | _ => decline

structure StartOptions where
  flowType : Option Bytes := none
  initialState : Option Bytes := none
  worker : Option Bytes := none
  partitionKey : Option (Option Bytes) := some none
  itemPayload : Option (Option Bytes) := some none
  leaseMs : Option ℤ := none
  nowMs : Option ℤ := none
  jobsCompact : Bool := false

def startOption (name : Str) (value : Value) (o : StartOptions) : Metered Err StartOptions :=
  if name = lit "TYPE" then do
    let flowType ← unreservedMaybeBytes value
    pure { o with flowType := flowType }
  else if name = lit "INITIAL_STATE" then do
    let initialState ← unreservedMaybeBytes value
    pure { o with initialState := initialState }
  else if name = lit "WORKER" then do
    let worker ← unreservedMaybeBytes value
    pure { o with worker := worker }
  else if name = lit "LEASE_MS" then pure { o with leaseMs := rawI64 rt value }
  else if name = lit "NOW" then pure { o with nowMs := rawI64 rt value }
  else if name = lit "PARTITION" then do
    let key ← optionalBytes value
    pure { o with partitionKey := key }
  else if name = lit "PAYLOAD" then do
    let itemPayload ← optionalBytes value
    pure { o with itemPayload := itemPayload }
  else if name = lit "RETURN" then
    if unhashable value then raise .typeError
    else if among value ["JOBS_COMPACT", "jobs_compact"] then pure { o with jobsCompact := true }
    else decline
  else decline

structure StartAndClaim where
  flowId : Bytes
  flowType : Bytes
  initialState : Bytes
  worker : Bytes
  partitionKey : Option Bytes
  itemPayload : Option Bytes
  leaseMs : ℤ
  nowMs : ℤ
  jobsCompact : Bool

/-- `_parse_compact_flow_start_and_claim_raw`. -/
def parseStartAndClaimRaw : Command → Metered Err StartAndClaim
  | raw::idArg::options =>
    if options.length < 10 ∨ options.length % 2 ≠ 0 then decline
    else if !rt.commandIs "FLOW.START_AND_CLAIM" raw then decline
    else do
      let flowId ← unreservedMaybeBytes idArg
      let o ← readOptions rt isUpper (startOption rt) (pairsOf options) {}
      pure ⟨← require flowId, ← require o.flowType, ← require o.initialState,
        ← require o.worker, ← require o.partitionKey, ← require o.itemPayload,
        ← require o.leaseMs, ← require o.nowMs, o.jobsCompact⟩
  | _ => decline

structure PutOptions where
  ownerFlowId : Option Bytes := none
  nameValue : Option Bytes := none
  partitionKey : Option (Option Bytes) := some none
  nowMs : Option ℤ := none
  returnMode : Value := .none

def putOption (name : Str) (value : Value) (o : PutOptions) : Metered Err PutOptions :=
  if name = lit "NOW" then pure { o with nowMs := rawI64 rt value }
  else if name = lit "OWNER_FLOW_ID" then do
    let owner ← unreservedMaybeBytes value
    pure { o with ownerFlowId := owner }
  else if name = lit "NAME" then do
    let nameValue ← unreservedMaybeBytes value
    pure { o with nameValue := nameValue }
  else if name = lit "PARTITION" then do
    let key ← optionalBytes value
    pure { o with partitionKey := key }
  else if name = lit "RETURN" then pure { o with returnMode := value }
  else decline

/-- The owner of a value, its name there and its partition. -/
structure OwnedValue where
  ownerFlowId : Bytes
  name : Bytes
  partitionKey : Option Bytes

structure ValuePut where
  mode : ℕ
  value : Bytes
  owned : Option OwnedValue
  nowMs : ℤ

/-- `_ok_on_success_return_mode`. -/
def okOnSuccessReturnMode (v : Value) : Metered Err Bool := do
  let normalized ← unreservedMaybeBytes v
  pure (normalized.any fun b => upperBytes b = utf8 (lit "OK_ON_SUCCESS"))

def putMode (plain ok : ℕ) (returnMode : Value) : Metered Err ℕ :=
  if returnMode.isNone then pure plain
  else do
    let succeeds ← okOnSuccessReturnMode returnMode
    if succeeds then pure ok else decline

/-- `_parse_compact_flow_value_put_raw`. -/
def parseValuePutRaw : Command → Metered Err ValuePut
  | raw::valueArg::options =>
    if options.length < 2 ∨ options.length % 2 ≠ 0 then decline
    else if !rt.commandIs "FLOW.VALUE.PUT" raw then decline
    else do
      let value ← unreservedMaybeBytes valueArg
      let o ← readOptions rt isUpper (putOption rt) (pairsOf options) {}
      let value ← require value
      let nowMs ← require o.nowMs
      let partitionKey ← require o.partitionKey
      if o.ownerFlowId.isNone ∧ o.nameValue.isNone ∧ partitionKey.isNone then do
        let mode ← putMode 7 15 o.returnMode
        pure ⟨mode, value, none, nowMs⟩
      else do
        let owner ← require o.ownerFlowId
        let name ← require o.nameValue
        let mode ← putMode 8 14 o.returnMode
        pure ⟨mode, value, some ⟨owner, name, partitionKey⟩, nowMs⟩
  | _ => decline

end Parsers

section Agreement

variable (rt : Runtime)

/-- The text or the bytes of a field. -/
def textField (payload : Payload) (field : String) : Option Bytes :=
  (Dict.get? payload field).bind binaryOf

/-- The integer of a field, as the raw parsers read it. -/
def intField (payload : Payload) (field : String) : Option ℤ :=
  (Dict.get? payload field).bind (rawI64 rt)

/-- A field that may be absent or `None`; the outer `none` is a value that is no text. -/
def optionalField (payload : Payload) (field : String) : Option (Option Bytes) :=
  optionalBinaryOf ((Dict.get? payload field).getD .none)

def returnField (payload : Payload) : Option Value := Dict.get? payload "return"

structure StepAgrees (payload : Payload) (r : StepContinue) : Prop where
  id : textField payload "id" = some r.flowId
  leaseToken : textField payload "lease_token" = some r.leaseToken
  fromState : textField payload "from_state" = some r.fromState
  toState : textField payload "to_state" = some r.toState
  partitionKey : optionalField payload "partition_key" = some r.partitionKey
  fencingToken : intField rt payload "fencing_token" = some r.fencingToken
  leaseMs : intField rt payload "lease_ms" = some r.leaseMs
  nowMs : intField rt payload "now_ms" = some r.nowMs
  plainReturn : r.returnMode = none → returnField payload = none
  jobsReturn : ∀ mode, r.returnMode = some mode → mode = utf8 (lit "JOBS_COMPACT") ∧
    (returnField payload = some (.str (lit "jobs_compact")) ∨
      returnField payload = some (.str (lit "job_compact")))

structure StartAgrees (payload : Payload) (r : StartAndClaim) : Prop where
  id : textField payload "id" = some r.flowId
  flowType : textField payload "type" = some r.flowType
  initialState : textField payload "initial_state" = some r.initialState
  worker : textField payload "worker" = some r.worker
  partitionKey : optionalField payload "partition_key" = some r.partitionKey
  itemPayload : optionalField payload "payload" = some r.itemPayload
  leaseMs : intField rt payload "lease_ms" = some r.leaseMs
  nowMs : intField rt payload "now_ms" = some r.nowMs
  returns : returnField payload = if r.jobsCompact then some (.str (lit "jobs_compact")) else none

structure PutAgrees (payload : Payload) (r : ValuePut) : Prop where
  value : textField payload "value" = some r.value
  ownerFlowId : optionalField payload "owner_flow_id" = some (r.owned.map OwnedValue.ownerFlowId)
  name : optionalField payload "name" = some (r.owned.map OwnedValue.name)
  partitionKey : optionalField payload "partition_key" =
    some (r.owned.bind OwnedValue.partitionKey)
  nowMs : intField rt payload "now_ms" = some r.nowMs
  owned : r.owned.isSome ↔ r.mode = 8 ∨ r.mode = 14
  returns : returnField payload =
    if r.mode = 14 ∨ r.mode = 15 then some (.str (lit "ok_on_success")) else none

end Agreement

section Binary

variable {v : Value} {limit : Option ℕ} {used w : ℕ}

theorem unreserved_binary {o : Option Bytes}
    (h : unreservedMaybeBytes v limit used = .ok (o, w)) : o = binaryOf v ∧ w = used := by
  cases limit with
  | none => exact unreservedMaybeBytes_unlimited v used w o h
  | some m =>
    exact unreservedMaybeBytes_unlimited v used w o (unreservedMaybeBytes_relaxed v m used _ h)

theorem optionalBytes_binary {o : Option (Option Bytes)}
    (h : optionalBytes v limit used = .ok (o, w)) : o = optionalBinaryOf v := by
  cases v with
  | none => exact (pure_eq_ok h).1.symm
  | _ =>
    obtain ⟨encoded, u, hencoded, h⟩ := bind_eq_ok h
    rw [← (pure_eq_ok h).1, (unreserved_binary hencoded).1]
    rfl

theorem require_some {α : Type} {o : Option α} {a : α}
    (h : (require o : Metered Err α) limit used = .ok (a, w)) : o = some a := by
  cases o with
  | none => cases h
  | some b => rw [(pure_eq_ok h).1]

theorem lowerAscii_upperAscii (c : CodePoint) : lowerAscii (upperAscii c) = lowerAscii c := by
  unfold upperAscii
  split_ifs with hc
  · have hval : (point (c.val-0x20)).val = c.val-0x20 := Nat.mod_eq_of_lt (by omega)
    have hback : point (c.val-0x20+0x20) = c := by
      refine Fin.ext ?_
      change (c.val-0x20+0x20) % 0x110000 = c.val
      rw [Nat.sub_add_cancel (by omega), Nat.mod_eq_of_lt c.isLt]
    rw [lowerAscii, if_pos (by omega), hval, hback, lowerAscii, if_neg (by omega)]
  · rfl

theorem utf8_points (bs : Bytes) (h : ∀ b ∈ bs, b.toNat < 0x80) :
    utf8 (bs.map bytePoint) = bs := by
  induction bs with
  | nil => rfl
  | cons b bs ih =>
    have hb := h b List.mem_cons_self
    have hpoint : utf8Point (bytePoint b) = [b] := by
      unfold utf8Point
      rw [bytePoint_val, if_pos (by omega), UInt8.ofNat_toNat]
    rw [List.map_cons, utf8, List.flatMap_cons, hpoint]
    exact congrArg (b::·) (ih fun c hc => h c (List.mem_cons_of_mem b hc))

/-- A mode in any case is read as text that has the same lower case. -/
theorem text_of_mode {rt : Runtime} {mode : String} (hm : isAscii (lit mode) = true) {b : Bytes}
    (hb : binaryOf v = some b) (hu : upperBytes b = utf8 (lit mode)) :
    ∃ s, rt.text v = .ok s ∧ rt.lowerText s = (lit mode).map lowerAscii := by
  obtain ⟨hlow, hpoints⟩ := utf8_ascii (lit mode) hm
  have hascii := upperBytes_ascii b (hu ▸ hlow)
  have hutf8 := utf8_points b hascii
  have hplain := isAscii_points b hascii
  have hdecode : decode b = some (b.map bytePoint) := by
    conv_lhs => rw [← hutf8]
    exact decode_utf8 (encodable_of_ascii _ hplain)
  have hlower : rt.lowerText (b.map bytePoint) = (lit mode).map lowerAscii := by
    have hupper := upperBytes_points b
    rw [hu, hpoints] at hupper
    have hsame (s : Str) : (s.map upperAscii).map lowerAscii = s.map lowerAscii := by
      rw [List.map_map]
      exact List.map_congr_left fun c _ => lowerAscii_upperAscii c
    rw [Runtime.lowerText, if_pos hplain, ← hupper, hsame]
  refine ⟨b.map bytePoint, ?_, hlower⟩
  cases v with
  | bytes c =>
    cases hb
    rw [Runtime.text, hdecode]
    rfl
  | str s =>
    simp only [binaryOf, encode] at hb
    split_ifs at hb with henc
    cases hb
    rw [decode_utf8 henc] at hdecode
    rw [Runtime.text, ← Option.some.inj hdecode]
    · rfl
    · exact fun c h => (by cases h)
  | _ => cases hb

end Binary

section Options

variable {rt : Runtime} {isUpper : Str → Bool}

/-- The options that the raw parsers know, with the fields of the option map. -/
def rawFields : Dict String String :=
  [("FENCING", "fencing_token"), ("INITIAL_STATE", "initial_state"), ("LEASE_MS", "lease_ms"),
    ("NAME", "name"), ("NOW", "now_ms"), ("OWNER_FLOW_ID", "owner_flow_id"),
    ("PARTITION", "partition_key"), ("PAYLOAD", "payload"), ("TYPE", "type"),
    ("WORKER", "worker"), ("RETURN", "return")]

theorem rawFields_known (e : String × String) (h : e ∈ rawFields) :
    e.1 ∈ flowOptionTokens ∧ e.1 ∉ itemMarkers ∧ e.1 ≠ "NOPAYLOAD" ∧ e.1 ≠ "PARTITIONS" ∧
      e.1 ∉ flowThreeValueOptions ∧
      (e.1 ≠ "PAYLOAD" → e.1 ≠ "RETURN" → isPlain e = true) := by
  revert e
  decide +kernel

/-- Every name is one that the raw parsers know. -/
def Named (rt : Runtime) (pairs : List (Value × Value)) : Prop :=
  ∀ e ∈ pairs, ∃ k f, (k, f) ∈ rawFields ∧ rt.commandToken e.1 = lit k

/-- The value of the last option of a name. -/
def lastOf (rt : Runtime) (name : String) : List (Value × Value) → Option Value
  | [] => none
  | (option, value)::pairs =>
    (lastOf rt name pairs).or (if rt.commandToken option = lit name then some value else none)

theorem optionName_lit {v : Value} {k : String} (hk : k ∈ flowOptionTokens)
    (h : optionName rt isUpper v = lit k) : rt.commandToken v = lit k := by
  cases v with
  | str s =>
    simp only [optionName] at h
    split_ifs at h
    · rw [h]
      exact commandToken_lit rt hk
    · exact h
  | _ => exact h

end Options

section Loops

variable {rt : Runtime} {isUpper : Str → Bool} {σ : Type}
  {step : Str → Value → σ → Metered Err σ} {limit : Option ℕ}

/-- A step that succeeds knows its name. -/
def Knows (limit : Option ℕ) (step : Str → Value → σ → Metered Err σ) (P : Str → Value → Prop) :
    Prop :=
  ∀ name value o o' used w, step name value o limit used = .ok (o', w) →
    (∃ k f, (k, f) ∈ rawFields ∧ name = lit k) ∧ P name value

theorem readOptions_named {P : Str → Value → Prop} (hstep : Knows limit step P)
    {pairs : List (Value × Value)} {o o' : σ} {used w : ℕ}
    (h : readOptions rt isUpper step pairs o limit used = .ok (o', w)) :
    Named rt pairs ∧ ∀ e ∈ pairs, P (rt.commandToken e.1) e.2 := by
  induction pairs generalizing o used with
  | nil => exact ⟨fun e he => absurd he List.not_mem_nil, fun e he => absurd he List.not_mem_nil⟩
  | cons x pairs ih =>
    obtain ⟨option, value⟩ := x
    obtain ⟨next, u, hnext, h⟩ := bind_eq_ok h
    obtain ⟨hnamed, hall⟩ := ih h
    obtain ⟨⟨k, f, hk, hname⟩, hP⟩ := hstep _ _ _ _ _ _ hnext
    have htoken := optionName_lit (rawFields_known _ hk).1 hname
    rw [hname, ← htoken] at hP
    constructor
    · intro e he
      rcases List.mem_cons.mp he with rfl | he
      · exact ⟨k, f, hk, htoken⟩
      · exact hnamed e he
    · intro e he
      rcases List.mem_cons.mp he with rfl | he
      · exact hP
      · exact hall e he

/-- A field that one option sets holds what the last such option gave it. -/
theorem readOptions_field {P : Str → Value → Prop} (hstep : Knows limit step P) {α : Type}
    {g : σ → α} {k : String} {φ : Value → α}
    (hset : ∀ name value o o' used w, step name value o limit used = .ok (o', w) →
      g o' = if name = lit k then φ value else g o)
    {pairs : List (Value × Value)} {o o' : σ} {used w : ℕ}
    (h : readOptions rt isUpper step pairs o limit used = .ok (o', w)) :
    g o' = (lastOf rt k pairs).elim (g o) φ := by
  induction pairs generalizing o used with
  | nil => rw [← (pure_eq_ok h).1, lastOf, Option.elim_none]
  | cons x pairs ih =>
    obtain ⟨option, value⟩ := x
    obtain ⟨next, u, hnext, h⟩ := bind_eq_ok h
    obtain ⟨⟨k', f, hk, hname⟩, -⟩ := hstep _ _ _ _ _ _ hnext
    have htoken := optionName_lit (rawFields_known _ hk).1 hname
    rw [ih h, hset _ _ _ _ _ _ hnext, lastOf, hname, htoken]
    cases lastOf rt k pairs with
    | some v => rfl
    | none =>
      rw [Option.none_or]
      split_ifs <;> rfl

theorem stepOption_cases {name : Str} {value : Value} {o o' : StepOptions} {used w : ℕ}
    (h : stepOption rt name value o limit used = .ok (o', w)) :
    (name = lit "FENCING" ∧ o' = { o with fencingToken := rawI64 rt value }) ∨
    (name = lit "LEASE_MS" ∧ o' = { o with leaseMs := rawI64 rt value }) ∨
    (name = lit "NOW" ∧ o' = { o with nowMs := rawI64 rt value }) ∨
    (name = lit "PARTITION" ∧ o' = { o with partitionKey := optionalBinaryOf value }) ∨
    (name = lit "RETURN" ∧ o' = { o with returnMode := some (utf8 (lit "JOBS_COMPACT")) } ∧
      ∃ b, binaryOf value = some b ∧ (upperBytes b = utf8 (lit "JOBS_COMPACT") ∨
        upperBytes b = utf8 (lit "JOB_COMPACT"))) := by
  unfold stepOption at h
  split_ifs at h with h1 h2 h3 h4 h5
  · exact .inl ⟨h1, (pure_eq_ok h).1.symm⟩
  · exact .inr (.inl ⟨h2, (pure_eq_ok h).1.symm⟩)
  · exact .inr (.inr (.inl ⟨h3, (pure_eq_ok h).1.symm⟩))
  · obtain ⟨key, u, hkey, h⟩ := bind_eq_ok h
    rw [optionalBytes_binary hkey] at h
    exact .inr (.inr (.inr (.inl ⟨h4, (pure_eq_ok h).1.symm⟩)))
  · obtain ⟨o1, u, hbinary, h⟩ := bind_eq_ok h
    obtain ⟨b, u', hb, h⟩ := bind_eq_ok h
    have hvalue := (unreserved_binary hbinary).1.symm.trans (require_some hb)
    split_ifs at h with hmode
    · exact .inr (.inr (.inr (.inr ⟨h5, (pure_eq_ok h).1.symm, b, hvalue, hmode⟩)))
    · cases h
  · cases h

theorem startOption_cases {name : Str} {value : Value} {o o' : StartOptions} {used w : ℕ}
    (h : startOption rt name value o limit used = .ok (o', w)) :
    (name = lit "TYPE" ∧ o' = { o with flowType := binaryOf value }) ∨
    (name = lit "INITIAL_STATE" ∧ o' = { o with initialState := binaryOf value }) ∨
    (name = lit "WORKER" ∧ o' = { o with worker := binaryOf value }) ∨
    (name = lit "LEASE_MS" ∧ o' = { o with leaseMs := rawI64 rt value }) ∨
    (name = lit "NOW" ∧ o' = { o with nowMs := rawI64 rt value }) ∨
    (name = lit "PARTITION" ∧ o' = { o with partitionKey := optionalBinaryOf value }) ∨
    (name = lit "PAYLOAD" ∧ o' = { o with itemPayload := optionalBinaryOf value }) ∨
    (name = lit "RETURN" ∧ o' = { o with jobsCompact := true } ∧
      among value ["JOBS_COMPACT", "jobs_compact"] = true) := by
  unfold startOption at h
  by_cases h1 : name = lit "TYPE"
  · rw [if_pos h1] at h
    obtain ⟨b, u, hb, h⟩ := bind_eq_ok h
    rw [(unreserved_binary hb).1] at h
    exact .inl ⟨h1, (pure_eq_ok h).1.symm⟩
  rw [if_neg h1] at h
  by_cases h2 : name = lit "INITIAL_STATE"
  · rw [if_pos h2] at h
    obtain ⟨b, u, hb, h⟩ := bind_eq_ok h
    rw [(unreserved_binary hb).1] at h
    exact .inr (.inl ⟨h2, (pure_eq_ok h).1.symm⟩)
  rw [if_neg h2] at h
  by_cases h3 : name = lit "WORKER"
  · rw [if_pos h3] at h
    obtain ⟨b, u, hb, h⟩ := bind_eq_ok h
    rw [(unreserved_binary hb).1] at h
    exact .inr (.inr (.inl ⟨h3, (pure_eq_ok h).1.symm⟩))
  rw [if_neg h3] at h
  by_cases h4 : name = lit "LEASE_MS"
  · rw [if_pos h4] at h
    exact .inr (.inr (.inr (.inl ⟨h4, (pure_eq_ok h).1.symm⟩)))
  rw [if_neg h4] at h
  by_cases h5 : name = lit "NOW"
  · rw [if_pos h5] at h
    exact .inr (.inr (.inr (.inr (.inl ⟨h5, (pure_eq_ok h).1.symm⟩))))
  rw [if_neg h5] at h
  by_cases h6 : name = lit "PARTITION"
  · rw [if_pos h6] at h
    obtain ⟨key, u, hkey, h⟩ := bind_eq_ok h
    rw [optionalBytes_binary hkey] at h
    exact .inr (.inr (.inr (.inr (.inr (.inl ⟨h6, (pure_eq_ok h).1.symm⟩)))))
  rw [if_neg h6] at h
  by_cases h7 : name = lit "PAYLOAD"
  · rw [if_pos h7] at h
    obtain ⟨key, u, hkey, h⟩ := bind_eq_ok h
    rw [optionalBytes_binary hkey] at h
    exact .inr (.inr (.inr (.inr (.inr (.inr (.inl ⟨h7, (pure_eq_ok h).1.symm⟩))))))
  rw [if_neg h7] at h
  by_cases h8 : name = lit "RETURN"
  · rw [if_pos h8] at h
    by_cases h9 : unhashable value = true
    · rw [if_pos h9] at h
      cases h
    rw [if_neg h9] at h
    by_cases h10 : among value ["JOBS_COMPACT", "jobs_compact"] = true
    · rw [if_pos h10] at h
      exact .inr (.inr (.inr (.inr (.inr (.inr (.inr ⟨h8, (pure_eq_ok h).1.symm, h10⟩))))))
    · rw [if_neg h10] at h
      cases h
  · rw [if_neg h8] at h
    cases h

theorem putOption_cases {name : Str} {value : Value} {o o' : PutOptions} {used w : ℕ}
    (h : putOption rt name value o limit used = .ok (o', w)) :
    (name = lit "NOW" ∧ o' = { o with nowMs := rawI64 rt value }) ∨
    (name = lit "OWNER_FLOW_ID" ∧ o' = { o with ownerFlowId := binaryOf value }) ∨
    (name = lit "NAME" ∧ o' = { o with nameValue := binaryOf value }) ∨
    (name = lit "PARTITION" ∧ o' = { o with partitionKey := optionalBinaryOf value }) ∨
    (name = lit "RETURN" ∧ o' = { o with returnMode := value }) := by
  unfold putOption at h
  split_ifs at h with h1 h2 h3 h4 h5
  · exact .inl ⟨h1, (pure_eq_ok h).1.symm⟩
  · obtain ⟨b, u, hb, h⟩ := bind_eq_ok h
    rw [(unreserved_binary hb).1] at h
    exact .inr (.inl ⟨h2, (pure_eq_ok h).1.symm⟩)
  · obtain ⟨b, u, hb, h⟩ := bind_eq_ok h
    rw [(unreserved_binary hb).1] at h
    exact .inr (.inr (.inl ⟨h3, (pure_eq_ok h).1.symm⟩))
  · obtain ⟨key, u, hkey, h⟩ := bind_eq_ok h
    rw [optionalBytes_binary hkey] at h
    exact .inr (.inr (.inr (.inl ⟨h4, (pure_eq_ok h).1.symm⟩)))
  · exact .inr (.inr (.inr (.inr ⟨h5, (pure_eq_ok h).1.symm⟩)))
  · cases h

end Loops

end FerricStore.RawFlowParsers
