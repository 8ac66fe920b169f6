import FerricStore.ProtocolCommand

/-!
# Building basic commands

The argument parsers of the key/value, hash, list, set and sorted-set commands.
Each one checks the number of arguments, converts them, and returns the fields of
the request; every refusal is an invalid-command error with its text.
-/

set_option autoImplicit false

namespace FerricStore.BasicCommands
open Text

def invalid {α : Type} (message : Str) : Except Err α := .error (.invalidCommand message)

def number (n : ℕ) : Str := lit (toString n)

/-- `_require_arg`. -/
def requireArg (args : List Value) (idx : ℕ) (command : String) : Except Err Value :=
  match args[idx]? with
  | some v => .ok v
  | none => invalid (lit command++lit " is missing argument "++number (idx+1))

/-- The argument counts of `_SPECIALIZED_COMMAND_ARITIES`; no maximum is `none`. -/
def specializedCommandArities : Dict String (ℕ × Option ℕ) :=
  [("GET", 1, some 1), ("HSET", 3, none), ("HGET", 2, some 2), ("HMGET", 2, none),
    ("HGETALL", 1, some 1), ("LPUSH", 2, none), ("RPUSH", 2, none), ("LRANGE", 3, some 3),
    ("SADD", 2, none), ("SREM", 2, none), ("SMEMBERS", 1, some 1), ("SISMEMBER", 2, some 2),
    ("ZADD", 3, none), ("ZREM", 2, none), ("ZRANGE", 3, none), ("ZSCORE", 2, some 2)]

def validateSpecializedCommandArity (name : String) (count : ℕ) : Except Err Unit :=
  match specializedCommandArities.get? name with
  | none => .ok ()
  | some (minimum, maximum) =>
    if count < minimum ∨ (maximum.any fun m => m < count) then
      invalid (lit "wrong number of arguments for "++lit name)
    else .ok ()

/-- `_int_arg`. -/
def intArg (rt : Runtime) (v : Value) (command : String) : Except Err ℤ :=
  match rt.rawInt v with
  | some n => .ok n
  | none => invalid (lit command++lit " requires integer arguments")

def positiveIntArg (rt : Runtime) (v : Value) (command : String) : Except Err ℤ := do
  let parsed ← intArg rt v command
  if parsed ≤ 0 then invalid (lit command++lit " requires positive integer arguments")
  else .ok parsed

/-- `_require_values`. -/
def requireValues (command : String) (args : List Value) (start : ℕ) : Except Err Unit := do
  let _ ← requireArg args 0 command
  if args.length ≤ start then invalid (lit command++lit " requires at least one value")
  else .ok ()

structure SetOptions where
  payload : Payload := []
  seen : List Str := []
  expiry : Bool := false

/-- The field an expiry option fills, and its unit in milliseconds or seconds. -/
def expiryField (token : Str) : Option (String × String × ℤ) :=
  if token = lit "EX" then some ("EX", "ttl", 1000)
  else if token = lit "PX" then some ("PX", "ttl", 1)
  else if token = lit "EXAT" then some ("EXAT", "exat", 1)
  else if token = lit "PXAT" then some ("PXAT", "pxat", 1)
  else none

def flagField (token : Str) : Option String :=
  if token = lit "NX" then some "nx"
  else if token = lit "XX" then some "xx"
  else if token = lit "GET" then some "get"
  else if token = lit "KEEPTTL" then some "keepttl"
  else none

/-- `_kv_set_options`. -/
def kvSetOptions (rt : Runtime) : ℕ → SetOptions → List Value → Except Err Payload
  | _, st, [] =>
    if (st.payload.get "nx").truthy && (st.payload.get "xx").truthy then
      invalid (lit "protocol SET NX and XX are mutually exclusive")
    else .ok st.payload
  | idx, st, arg::rest =>
    let token := rt.commandToken arg
    if token ∈ st.seen then
      invalid (lit "protocol SET option "++token++lit " may only be specified once")
    else match expiryField token with
      | some (name, field, unit) =>
        if st.expiry then invalid (lit "protocol SET accepts only one expiry option")
        else match rest with
          | [] => invalid (lit name++lit " is missing argument "++number (idx+2))
          | v::rest => do
            let parsed ← positiveIntArg rt v ("SET "++name)
            kvSetOptions rt (idx+2)
              ⟨st.payload.set field (.int (parsed*unit)), token::st.seen, true⟩ rest
      | none => match flagField token with
        | some field =>
          if field = "keepttl" && st.expiry then
            invalid (lit "protocol SET expiry options and KEEPTTL are mutually exclusive")
          else kvSetOptions rt (idx+1)
            ⟨st.payload.set field (.bool true), token::st.seen,
              st.expiry || field = "keepttl"⟩ rest
        | none => invalid (lit "protocol SET does not support option "++token)

/-- `_field_value_map`. -/
def fieldValueMap (command : String) : List Value → Except Err (Dict Key Value)
  | [] => invalid (lit command++lit " requires field/value pairs")
  | args =>
    if args.length % 2 ≠ 0 then invalid (lit command++lit " requires field/value pairs")
    else pairs [] args
where
  pairs (fields : Dict Key Value) : List Value → Except Err (Dict Key Value)
    | .str s::v::rest => pairs (fields.set (.str s) v) rest
    | .bytes b::v::rest => pairs (fields.set (.bytes b) v) rest
    | [] => .ok fields
    | _ => invalid (lit command++lit " fields must be strings or bytes")

/-- `_zadd_items`. A score that is not a number, and one that is not finite, have
errors of their own. -/
def zaddItems (rt : Runtime) : List Value → Except Err (List Value)
  | [] => invalid (lit "ZADD requires score/member pairs")
  | args =>
    if args.length % 2 ≠ 0 then invalid (lit "ZADD requires score/member pairs")
    else pairs args
where
  score (v : Value) : Except Err (BitVec 64) :=
    match v with
    | .bool _ => invalid (lit "ZADD score must be numeric")
    | v => match rt.toFloat v with
      | .error _ => invalid (lit "ZADD score must be numeric")
      | .ok bits => if isFinite bits then .ok bits else invalid (lit "ZADD score must be finite")
  pairs : List Value → Except Err (List Value)
    | scoreArg::member::rest => do
      let bits ← score scoreArg
      let items ← pairs rest
      .ok (.list [.float bits, member]::items)
    | _ => .ok []

/-- The options of `_zrange_payload`. -/
def zrangeOptions (rt : Runtime) (payload : Payload) : List Value → Except Err Payload
  | [] => .ok payload
  | arg::rest =>
    if rt.commandToken arg = lit "WITHSCORES" then
      zrangeOptions rt (payload.set "withscores" (.bool true)) rest
    else invalid (lit "protocol ZRANGE does not support option "++rt.commandToken arg)

def rangeFields (rt : Runtime) (name : String) (args : List Value) : Except Err Payload := do
  let key ← requireArg args 0 name
  let start ← intArg rt (← requireArg args 1 name) name
  let stop ← intArg rt (← requireArg args 2 name) name
  .ok [("key", key), ("start", .int start), ("stop", .int stop)]

def keyOnly (name : String) (args : List Value) : Except Err Payload := do
  let key ← requireArg args 0 name
  .ok [("key", key)]

def keyAndField (name field : String) (args : List Value) : Except Err Payload := do
  let key ← requireArg args 0 name
  let value ← requireArg args 1 name
  .ok [("key", key), (field, value)]

def keyAndValues (name field : String) (args : List Value) : Except Err Payload := do
  requireValues name args 1
  let key ← requireArg args 0 name
  .ok [("key", key), (field, .list (args.drop 1))]

/-- The fields of the seventeen pipeline commands, by family. -/
def basicFields (rt : Runtime) (name : String) (args : List Value) :
    Option (Except Err Payload) :=
  if name = "GET" then some (keyOnly name args)
  else if name = "SET" then some do
    let payload ← keyAndField name "value" args
    let options ← kvSetOptions rt 0 {} (args.drop 2)
    .ok (payload.update options)
  else if name = "HSET" then some do
    let key ← requireArg args 0 name
    let fields ← fieldValueMap name (args.drop 1)
    .ok [("key", key), ("fields", .dict fields)]
  else if name = "HGET" then some (keyAndField name "field" args)
  else if name = "HMGET" then some (keyAndValues name "fields" args)
  else if name = "HGETALL" then some (keyOnly name args)
  else if name = "LPUSH" ∨ name = "RPUSH" then some (keyAndValues name "values" args)
  else if name = "LRANGE" then some (rangeFields rt name args)
  else if name = "SADD" ∨ name = "SREM" then some (keyAndValues name "members" args)
  else if name = "SMEMBERS" then some (keyOnly name args)
  else if name = "SISMEMBER" then some (keyAndField name "member" args)
  else if name = "ZADD" then some do
    let key ← requireArg args 0 name
    let items ← zaddItems rt (args.drop 1)
    .ok [("key", key), ("items", .list items)]
  else if name = "ZREM" then some (keyAndValues name "members" args)
  else if name = "ZRANGE" then some do
    let payload ← rangeFields rt name args
    zrangeOptions rt payload (args.drop 3)
  else if name = "ZSCORE" then some (keyAndField name "member" args)
  else none

/-- The names whose builders are modelled here. -/
def basicNames : List String :=
  ["SET", "GET", "HGET", "HMGET", "HGETALL", "SMEMBERS", "SISMEMBER", "LRANGE", "ZRANGE",
    "ZSCORE", "HSET", "LPUSH", "RPUSH", "SADD", "SREM", "ZADD", "ZREM"]

/-- `build_protocol_command`, with the builder of every other command as `rest`. -/
def buildProtocolCommand (rt : Runtime)
    (rest : Str → List Value → Except Err ProtocolCommand) : Command → Except Err ProtocolCommand
  | [] => invalid (lit "protocol command requires command name")
  | raw::args =>
    match basicNames.find? fun name => lit name = rt.commandToken raw with
    | none => rest (rt.commandToken raw) args
    | some name => do
      if name ≠ "SET" then validateSpecializedCommandArity name args.length
      match basicFields rt name args with
      | none => rest (rt.commandToken raw) args
      | some fields => do
        let payload ← fields
        .ok ⟨opcode name, .fields payload, 1, 0⟩

end FerricStore.BasicCommands
