import FerricStore.ProtocolCommand

/-!
# The option grammar of the Flow commands

An option is a keyword and the arguments it covers. `PAYLOAD` is a flag or takes
a value, and an argument in bytes that spells a keyword may be either, so one
backward pass first decides which suffixes of the arguments are option lists. The
table of a suffix is the suffix of the table, and a walk carries it along.
-/

set_option autoImplicit false

namespace FerricStore.FlowOptions
open Text

def flowOptionFieldNames : Dict String String :=
  [("AFTER_MS", "after_ms"), ("ACTUAL_AMOUNT", "actual_amount"), ("AMOUNT", "amount"),
    ("APPROVER", "approver"), ("ASSIGNEES", "assignees"), ("AT_MS", "at_ms"),
    ("ATTRIBUTE", "attribute"), ("ATTRIBUTES", "attributes"),
    ("ATTRIBUTES_DELETE", "attributes_delete"), ("ATTRIBUTES_MERGE", "attributes_merge"),
    ("BACKOFF", "backoff"), ("BASE_MS", "base_ms"), ("BLOCK", "block_ms"),
    ("CONSISTENT_PROJECTION", "consistent_projection"), ("CORRELATION_ID", "correlation_id"),
    ("COUNT", "count"), ("CRON", "cron"), ("DELAY_MS", "delay_ms"), ("ERROR", "error"),
    ("ERROR_CLASS", "error_class"), ("ERROR_CLASSES", "error_classes"),
    ("ERROR_REF", "error_ref"), ("EFFECT_KEY", "effect_key"), ("EFFECT_TYPE", "effect_type"),
    ("END_AT_MS", "end_at_ms"), ("EVENT", "event"), ("EVERY_MS", "every_ms"),
    ("EXHAUSTED_TO", "exhausted_to"), ("EXPIRES_AT_MS", "expires_at_ms"),
    ("EXPECT_STATE", "expect_state"), ("EXTERNAL_ID", "external_id"),
    ("FENCING", "fencing_token"), ("FENCING_TOKEN", "fencing_token"), ("FAILURE", "failure"),
    ("FAILURE_RATE_PCT", "failure_rate_pct"), ("FROM_EVENT", "from_event"),
    ("FROM_MS", "from_ms"), ("FROM_STATE", "from_state"), ("FROM_VERSION", "from_version"),
    ("FULL", "full"), ("FAILURE_THRESHOLD", "failure_threshold"), ("FLOW_ID", "flow_id"),
    ("FIRE_AT_MS", "fire_at_ms"), ("GROUP", "group_id"), ("GROUP_ID", "group_id"),
    ("GOVERNANCE_SCOPE", "governance_scope"), ("HALF_OPEN_MAX_PROBES", "half_open_max_probes"),
    ("HALF_OPEN_SUCCESS_THRESHOLD", "half_open_success_threshold"),
    ("HISTORY_HOT_MAX_EVENTS", "history_hot_max_events"),
    ("HISTORY_MAX_EVENTS", "history_max_events"), ("IDEMPOTENT", "idempotent"),
    ("IDEMPOTENCY", "idempotency_key"), ("IDEMPOTENCY_KEY", "idempotency_key"),
    ("INCLUDE_COLD", "include_cold"), ("INDEPENDENT", "independent"),
    ("INDEXED_STATE_META", "indexed_state_meta"), ("IF_STATE", "if_state"),
    ("INITIAL_STATE", "initial_state"), ("ITEMS", "items"), ("JITTER_PCT", "jitter_pct"),
    ("KIND", "kind"), ("LATENCY_MS", "latency_ms"),
    ("LATENCY_THRESHOLD_MS", "latency_threshold_ms"), ("LEASE_MS", "lease_ms"),
    ("LEASE_TOKEN", "lease_token"), ("LIMIT", "limit"), ("LOCAL_CACHE", "local_cache"),
    ("MAX_FIRES", "max_fires"), ("MAX_ATTEMPTS", "max_attempts"),
    ("MAX_ACTIVE_MS", "max_active_ms"), ("MAX_BYTES", "max_bytes"),
    ("MAXBYTES", "payload_max_bytes"), ("MAX_MS", "max_ms"), ("MAX_RETRIES", "max_retries"),
    ("MIN_CALLS", "min_calls"), ("NAME", "name"), ("NOW", "now_ms"),
    ("OLDER_THAN", "older_than_ms"), ("ON_CHILD_FAILED", "on_child_failed"),
    ("ON_PARENT_CLOSED", "on_parent_closed"), ("OPEN_MS", "open_ms"),
    ("OPERATION_DIGEST", "operation_digest"), ("OVERRIDE", "override"),
    ("CATCHUP_POLICY", "catchup_policy"), ("OVERLAP_POLICY", "overlap_policy"),
    ("OVERLAP_RETRY_MS", "overlap_retry_ms"), ("OVERWRITE", "overwrite"),
    ("OWNER_FLOW_ID", "owner_flow_id"), ("PARENT_FLOW_ID", "parent_flow_id"),
    ("PARTITION", "partition_key"), ("PAYLOAD", "payload"),
    ("PAYLOAD_MAX_BYTES", "payload_max_bytes"), ("PAYLOAD_REF", "payload_ref"),
    ("PRIORITY", "priority"), ("POLICY_HASH", "policy_hash"),
    ("POLICY_VERSION", "policy_version"), ("REASON", "reason"), ("REASON_REF", "reason_ref"),
    ("REQUESTED_BY", "requested_by"), ("RESERVATION_ID", "reservation_id"),
    ("RESERVATION_IDS", "reservation_ids"), ("RECLAIM_EXPIRED", "reclaim_expired"),
    ("RECLAIM_RATIO", "reclaim_ratio"), ("RESULT", "result"), ("RESULT_REF", "result_ref"),
    ("RETENTION_TTL_MS", "retention_ttl_ms"), ("RETENTION_TTL", "retention_ttl_ms"),
    ("REV", "rev"), ("ROOT_FLOW_ID", "root_flow_id"), ("RUN_AT", "run_at_ms"),
    ("RUN_AT_MS", "run_at_ms"), ("SIGNAL", "signal"), ("SHARD_ID", "shard_id"),
    ("SCOPE", "scope"), ("STATE", "state"), ("STATE_META", "state_meta"), ("STATUS", "status"),
    ("STATES", "states"), ("START_AT_MS", "start_at_ms"), ("STEPS", "steps"),
    ("SUCCESS", "success"), ("TERMINAL_ONLY", "terminal_only"),
    ("TERMINAL_LOCAL_ONLY", "terminal_local_only"), ("TO_EVENT", "to_event"), ("TO_MS", "to_ms"),
    ("TO_STATE", "to_state"), ("TO_VERSION", "to_version"), ("TARGET", "target"),
    ("TARGET_TYPE", "target_type"), ("TRANSITION_TO", "transition_to"), ("TTL", "ttl_ms"),
    ("TTL_MS", "ttl_ms"), ("TIMEOUT_MS", "timeout_ms"), ("TIMEZONE", "timezone"),
    ("TYPE", "type"), ("USAGE", "usage"), ("VALUE_MAX_BYTES", "value_max_bytes"),
    ("VALUES", "values"), ("WAIT", "wait"), ("WAIT_STATE", "wait_state"),
    ("WINDOW_MS", "window_ms"), ("WORKER", "worker")]

def flowThreeValueOptions : List String :=
  ["ATTRIBUTE", "ATTRIBUTE_MERGE", "STATE_META", "VALUE", "VALUE_REF"]

def flowOptionTokens : List String := flowOptionFieldNames.map Prod.fst ++
  ["ATTRIBUTE_DELETE", "ATTRIBUTE_MERGE", "DROP_VALUE", "ITEMS_EXT", "ITEMS_EXT_V2",
    "NOPAYLOAD", "OVERRIDE_VALUE", "PARTITIONS", "RETURN", "VALUE", "VALUE_REF"]

def maxFlowOptionTokenBytes : ℕ := (flowOptionTokens.map String.length).foldl max 0

def itemMarkers : List String := ["ITEMS", "ITEMS_EXT", "ITEMS_EXT_V2"]

/-- `_token`: the keyword an argument spells. -/
def token (rt : Runtime) : Value → Option String
  | .bytes b =>
    if b.length > maxFlowOptionTokenBytes then none
    else flowOptionTokens.find? fun t => utf8 (lit t) = upperBytes b
  | .str s =>
    if s.length > maxFlowOptionTokenBytes then none
    else flowOptionTokens.find? fun t => lit t = rt.upperText s
  | _ => none

/-- `_non_negative_int`. Only `TypeError` and `ValueError` are suppressed; `int(None)`
is one of the former. -/
def nonNegativeInt (rt : Runtime) : Value → Except Err (Option ℕ)
  | .none | .bool _ => .ok none
  | v => match rt.toInt v with
    | .ok n => .ok (if 0 ≤ n then some n.toNat else none)
    | .error .typeError | .error .valueError => .ok none
    | .error e => .error e

def isText : Value → Bool
  | .str _ => true
  | _ => false

/-- `FlowOptionPlan._suffix`. -/
def suffix (valid : List Bool) (index : ℕ) : Bool := valid.getD index false

def payloadValid (rt : Runtime) (valid : List Bool) : List Value → Bool
  | [] => true
  | next::_ =>
    if (token rt next).isSome then
      if isText next then suffix valid 0 else suffix valid 0 || suffix valid 1
    else suffix valid 1

def fixedWidth (t : String) : ℕ := if t ∈ flowThreeValueOptions then 3 else 2

/-- Whether an option list starts at the keyword; `valid` is the table of the
arguments after it. -/
def optionValid (rt : Runtime) (rest : List Value) (valid : List Bool) :
    Option String → Except Err Bool
  | none => .ok false
  | some t =>
    if t ∈ itemMarkers then .ok true
    else if t = "NOPAYLOAD" then .ok (suffix valid 0)
    else if t = "PAYLOAD" then .ok (payloadValid rt valid rest)
    else if t = "PARTITIONS" then do
      let count ← nonNegativeInt rt (rest.headD .none)
      .ok (count.any fun n => suffix valid (n+1))
    else .ok (suffix valid (fixedWidth t-1))

/-- `FlowOptionPlan`: one entry for each argument, and one for the end. -/
def flowOptionPlan (rt : Runtime) : List Value → Except Err (List Bool)
  | [] => .ok [true]
  | v::rest => do
    let valid ← flowOptionPlan rt rest
    let first ← optionValid rt rest valid (token rt v)
    .ok (first::valid)

/-- `FlowOptionPlan.payload_is_flag`, from the arguments after the keyword. -/
def payloadIsFlag (rt : Runtime) (valid : List Bool) : List Value → Bool
  | [] => true
  | next::_ =>
    if (token rt next).isNone then false
    else if isText next then true
    else suffix valid 0 && !suffix valid 1

/-- `FlowOptionPlan.option_width`. -/
def optionWidth (rt : Runtime) (rest : List Value) (valid : List Bool) :
    Option String → Except Err (Option ℕ)
  | none => .ok none
  | some t =>
    if t = "ITEMS" ∨ t = "ITEMS_EXT" then .ok none
    else if t = "NOPAYLOAD" ∨ (t = "PAYLOAD" ∧ payloadIsFlag rt valid rest) then .ok (some 1)
    else if t = "PARTITIONS" then do
      let count ← nonNegativeInt rt (rest.headD .none)
      .ok (count.map (2+·))
    else .ok (some (fixedWidth t))

/-- Digits, upper-case letters and underscores. -/
def isKeywordPoint (c : CodePoint) : Bool := (0x30 ≤ c.val && c.val ≤ 0x5A) || c.val = 0x5F

theorem flowOptionTokens_spelling (t : String) (h : t ∈ flowOptionTokens) :
    ((lit t).all isKeywordPoint && (lit t).length ≤ maxFlowOptionTokenBytes) = true := by
  revert t
  decide +kernel

theorem flowOptionTokens_points {t : String} (h : t ∈ flowOptionTokens) :
    ∀ c ∈ lit t, (0x30 ≤ c.val ∧ c.val ≤ 0x5A) ∨ c.val = 0x5F := by
  have hs := flowOptionTokens_spelling t h
  rw [Bool.and_eq_true, List.all_eq_true] at hs
  intro c hc
  simpa [isKeywordPoint] using hs.1 c hc

theorem flowOptionTokens_ascii (t : String) (h : t ∈ flowOptionTokens) :
    isAscii (lit t) = true := by
  rw [isAscii, List.all_eq_true]
  intro c hc
  have hp := flowOptionTokens_points h c hc
  rw [decide_eq_true_eq]
  omega

theorem upperAscii_lit {t : String} (h : t ∈ flowOptionTokens) :
    (lit t).map upperAscii = lit t := by
  have hid : ∀ c ∈ lit t, upperAscii c = c := by
    intro c hc
    have hp := flowOptionTokens_points h c hc
    rw [upperAscii, if_neg (by omega)]
  rw [List.map_congr_left hid, List.map_id']

theorem length_lit_le {t : String} (h : t ∈ flowOptionTokens) :
    (lit t).length ≤ maxFlowOptionTokenBytes := by
  have hs := flowOptionTokens_spelling t h
  rw [Bool.and_eq_true, decide_eq_true_eq] at hs
  exact hs.2

theorem token_mem (rt : Runtime) (v : Value) (t : String) (h : token rt v = some t) :
    t ∈ flowOptionTokens := by
  unfold token at h
  split at h
  · split at h
    · cases h
    · exact List.mem_of_find?_eq_some h
  · split at h
    · cases h
    · exact List.mem_of_find?_eq_some h
  · cases h

theorem commandToken_of_upperBytes (rt : Runtime) (b : Bytes) (t : String)
    (ht : t ∈ flowOptionTokens) (h : utf8 (lit t) = upperBytes b) :
    rt.commandToken (.bytes b) = lit t := by
  obtain ⟨hlow, hpoints⟩ := utf8_ascii (lit t) (flowOptionTokens_ascii t ht)
  have hb := upperBytes_ascii b (h ▸ hlow)
  simp only [Runtime.commandToken, Runtime.upperText, decodeReplace_ascii b hb,
    isAscii_points b hb, if_true]
  rw [upperBytes_points, ← h, hpoints]

/-- The command builder reads a keyword of the table as the same keyword. -/
theorem commandToken_of_token (rt : Runtime) (v : Value) (t : String)
    (h : token rt v = some t) : rt.commandToken v = lit t := by
  have ht := token_mem rt v t h
  unfold token at h
  split at h
  · split at h
    · cases h
    · exact commandToken_of_upperBytes rt _ t ht (by simpa using List.find?_some h)
  · split at h
    · cases h
    · have hs := List.find?_some h
      exact (of_decide_eq_true hs).symm
  · cases h

theorem plan_cons_ok {rt : Runtime} {v : Value} {rest : List Value} {table : List Bool}
    (h : flowOptionPlan rt (v::rest) = .ok table) :
    ∃ first valid, table = first::valid ∧ flowOptionPlan rt rest = .ok valid ∧
      optionValid rt rest valid (token rt v) = .ok first := by
  obtain ⟨valid, hvalid, h⟩ := except_bind_eq_ok h
  obtain ⟨first, hfirst, h⟩ := except_bind_eq_ok h
  cases h
  exact ⟨first, valid, rfl, hvalid, hfirst⟩

theorem plan_tail {rt : Runtime} {v : Value} {rest : List Value} {table : List Bool}
    (h : flowOptionPlan rt (v::rest) = .ok table) :
    flowOptionPlan rt rest = .ok table.tail := by
  obtain ⟨first, valid, rfl, hvalid, -⟩ := plan_cons_ok h
  exact hvalid

theorem plan_drop {rt : Runtime} {args : List Value} {table : List Bool}
    (h : flowOptionPlan rt args = .ok table) (k : ℕ) (hk : k ≤ args.length) :
    flowOptionPlan rt (args.drop k) = .ok (table.drop k) := by
  induction k generalizing args table with
  | zero => simpa using h
  | succ k ih =>
    cases args with
    | nil => simp at hk
    | cons v rest =>
      obtain ⟨first, valid, rfl, hvalid, -⟩ := plan_cons_ok h
      exact ih hvalid (by simpa using hk)

end FerricStore.FlowOptions
