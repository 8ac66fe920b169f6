import FerricStore.Value

/-!
# Protocol commands

A command as the builder leaves it: its opcode, its fields or a body that is
already encoded, its lane and its flags. The opcode table is the one of the
protocol, and the conversions are those the argument parsers share.
-/

set_option autoImplicit false

namespace FerricStore
open Text

inductive Body where
  | fields (payload : Payload)
  | raw (bytes : Bytes)
  deriving Repr

structure ProtocolCommand where
  opcode : ℕ
  payload : Body
  laneId : ℕ := 1
  flags : ℕ := 0
  deriving Repr

/-- The arguments of a command, its name first. -/
abbrev Command := List Value

def opcodes : Dict String ℕ :=
  [("HELLO", 0x0001), ("AUTH", 0x0002), ("PING", 0x0003), ("CLIENT.SETNAME", 0x0004),
    ("CLIENT.INFO", 0x0005), ("ROUTE", 0x0006), ("SHARDS", 0x0007), ("BACKPRESSURE", 0x0008),
    ("QUIT", 0x0009), ("GOAWAY", 0x000A), ("OPTIONS", 0x000B), ("STARTUP", 0x000C),
    ("WINDOW_UPDATE", 0x000D), ("PIPELINE", 0x000E), ("ROUTE_BATCH", 0x000F), ("EVENT", 0x0010),
    ("SUBSCRIBE_EVENTS", 0x0011), ("UNSUBSCRIBE_EVENTS", 0x0012), ("COMMAND_EXEC", 0x0100),
    ("GET", 0x0101), ("SET", 0x0102), ("DEL", 0x0103), ("MGET", 0x0104), ("MSET", 0x0105),
    ("CAS", 0x0106), ("LOCK", 0x0107), ("UNLOCK", 0x0108), ("EXTEND", 0x0109),
    ("RATELIMIT.ADD", 0x010A), ("FETCH_OR_COMPUTE", 0x010B),
    ("FETCH_OR_COMPUTE_RESULT", 0x010C), ("FETCH_OR_COMPUTE_ERROR", 0x010D), ("HSET", 0x0110),
    ("HGET", 0x0111), ("HMGET", 0x0112), ("HGETALL", 0x0113), ("LPUSH", 0x0120),
    ("RPUSH", 0x0121), ("LPOP", 0x0122), ("RPOP", 0x0123), ("LRANGE", 0x0124), ("SADD", 0x0130),
    ("SREM", 0x0131), ("SMEMBERS", 0x0132), ("SISMEMBER", 0x0133), ("ZADD", 0x0140),
    ("ZREM", 0x0141), ("ZRANGE", 0x0142), ("ZSCORE", 0x0143), ("CLUSTER.HEALTH", 0x0301),
    ("CLUSTER.STATS", 0x0302), ("CLUSTER.KEYSLOT", 0x0303), ("CLUSTER.SLOTS", 0x0304),
    ("CLUSTER.STATUS", 0x0305), ("CLUSTER.JOIN", 0x0306), ("CLUSTER.LEAVE", 0x0307),
    ("CLUSTER.FAILOVER", 0x0308), ("CLUSTER.PROMOTE", 0x0309), ("CLUSTER.DEMOTE", 0x030A),
    ("CLUSTER.ROLE", 0x030B), ("FERRICSTORE.KEY_INFO", 0x030C), ("FERRICSTORE.CONFIG", 0x030D),
    ("FERRICSTORE.HOTNESS", 0x030E), ("FERRICSTORE.METRICS", 0x030F),
    ("FERRICSTORE.BLOBGC", 0x0310), ("CLUSTER.FEATURES", 0x0311),
    ("CLUSTER.FEATURES.RAISE", 0x0312), ("FLOW.CREATE", 0x0201), ("FLOW.GET", 0x0202),
    ("FLOW.CLAIM_DUE", 0x0203), ("FLOW.COMPLETE", 0x0204), ("FLOW.TRANSITION", 0x0205),
    ("FLOW.RETRY", 0x0206), ("FLOW.FAIL", 0x0207), ("FLOW.CANCEL", 0x0208),
    ("FLOW.EXTEND_LEASE", 0x0209), ("FLOW.HISTORY", 0x020A), ("FLOW.VALUE.PUT", 0x020B),
    ("FLOW.VALUE.MGET", 0x020C), ("FLOW.SIGNAL", 0x020D), ("FLOW.CREATE_MANY", 0x020F),
    ("FLOW.COMPLETE_MANY", 0x0210), ("FLOW.TRANSITION_MANY", 0x0211),
    ("FLOW.RETRY_MANY", 0x0212), ("FLOW.FAIL_MANY", 0x0213), ("FLOW.CANCEL_MANY", 0x0214),
    ("FLOW.RECLAIM", 0x0215), ("FLOW.REWIND", 0x0216), ("FLOW.INFO", 0x021C),
    ("FLOW.POLICY.SET", 0x021E), ("FLOW.POLICY.GET", 0x021F), ("FLOW.SPAWN_CHILDREN", 0x0220),
    ("FLOW.RETENTION_CLEANUP", 0x0221), ("FLOW.STEP_CONTINUE", 0x0222),
    ("FLOW.START_AND_CLAIM", 0x0223), ("FLOW.RUN_STEPS_MANY", 0x0224),
    ("FLOW.SCHEDULE.CREATE", 0x0225), ("FLOW.SCHEDULE.GET", 0x0226),
    ("FLOW.SCHEDULE.DELETE", 0x0227), ("FLOW.SCHEDULE.FIRE_DUE", 0x0228),
    ("FLOW.SCHEDULE.LIST", 0x0229), ("FLOW.SCHEDULE.FIRE", 0x022A),
    ("FLOW.SCHEDULE.PAUSE", 0x022B), ("FLOW.SCHEDULE.RESUME", 0x022C), ("FLOW.STATS", 0x022D),
    ("FLOW.ATTRIBUTES", 0x022E), ("FLOW.ATTRIBUTE_VALUES", 0x022F), ("FLOW.QUERY", 0x0231),
    ("FLOW.EFFECT.RESERVE", 0x0240), ("FLOW.EFFECT.CONFIRM", 0x0241),
    ("FLOW.EFFECT.FAIL", 0x0242), ("FLOW.EFFECT.COMPENSATE", 0x0243),
    ("FLOW.EFFECT.GET", 0x0244), ("FLOW.GOVERNANCE.LEDGER", 0x0245),
    ("FLOW.APPROVAL.REQUEST", 0x0246), ("FLOW.APPROVAL.APPROVE", 0x0247),
    ("FLOW.APPROVAL.REJECT", 0x0248), ("FLOW.APPROVAL.GET", 0x0249),
    ("FLOW.CIRCUIT.OPEN", 0x024A), ("FLOW.CIRCUIT.CLOSE", 0x024B), ("FLOW.CIRCUIT.GET", 0x024C),
    ("FLOW.BUDGET.RESERVE", 0x024D), ("FLOW.BUDGET.GET", 0x024E), ("FLOW.LIMIT.LEASE", 0x024F),
    ("FLOW.LIMIT.SPEND", 0x0250), ("FLOW.LIMIT.RELEASE", 0x0251), ("FLOW.LIMIT.GET", 0x0252),
    ("FLOW.APPROVAL.LIST", 0x0253), ("FLOW.GOVERNANCE.OVERVIEW", 0x0254),
    ("FLOW.BUDGET.LIST", 0x0255), ("FLOW.LIMIT.LIST", 0x0256), ("FLOW.BUDGET.COMMIT", 0x0257),
    ("FLOW.BUDGET.RELEASE", 0x0258)]

def opcode (name : String) : ℕ := (opcodes.get? name).getD 0

/-- `raw != name and _command_name(raw) != name`, negated. -/
def Runtime.commandIs (rt : Runtime) (name : String) (raw : Value) : Bool :=
  (match raw with
    | .str s => s = lit name
    | _ => false) || rt.commandToken raw = lit name

/-- `_raw_int`: an integer, or text that `int` accepts. -/
def Runtime.rawInt (rt : Runtime) : Value → Option ℤ
  | .int n => some n
  | .str s => (rt.int (.str s)).toOption
  | .bytes b => (rt.int (.bytes b)).toOption
  | _ => none

/-- The finite value `float` gives a score that is not a boolean. -/
def Runtime.score (rt : Runtime) : Value → Option (BitVec 64)
  | .bool _ => none
  | v => (rt.toFloat v).toOption.filter isFinite

def booleanOf (s : Str) : Option Bool :=
  if s ∈ ["1", "true", "yes", "on"].map lit then some true
  else if s ∈ ["0", "false", "no", "off"].map lit then some false
  else none

def invalidBoolean : Err :=
  .invalidCommand (lit "protocol boolean must be true/false, yes/no, on/off, or 1/0")

def Runtime.coerceText (rt : Runtime) (s : Str) : Except Err Bool :=
  (booleanOf (rt.lowerText s)).elim (.error invalidBoolean) .ok

/-- `_coerce_bool`. -/
def Runtime.coerceBool (rt : Runtime) : Value → Except Err Bool
  | .bool b => .ok b
  | .bytes b => match decode b with
    | some s => rt.coerceText s
    | none => .error (.invalidCommand (lit "protocol boolean must be valid UTF-8"))
  | .str s => rt.coerceText s
  | .int n => if n = 1 then .ok true else if n = 0 then .ok false else .error invalidBoolean
  | _ => .error invalidBoolean

theorem Runtime.commandIs_iff (rt : Runtime) (name : String) (raw : Value)
    (h : rt.commandToken (.str (lit name)) = lit name) :
    rt.commandIs name raw ↔ rt.commandToken raw = lit name := by
  unfold commandIs
  constructor
  · intro hc
    rcases Bool.or_eq_true _ _ ▸ hc with hr | ht
    · split at hr
      · rw [of_decide_eq_true hr]
        exact h
      · cases hr
    · exact of_decide_eq_true ht
  · intro ht
    simp [ht]

end FerricStore
