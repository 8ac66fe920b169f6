import FerricStore.BasicCommands
import FerricStore.FlowOptions

/-!
# The option map of a command

`optionMap` reads a list of options into the fields of the request. The keyword
decides how many arguments an option covers and what it does to the fields read
so far: it fills a field, adds to a list or a map, or turns `state` into `states`.
-/

set_option autoImplicit false

namespace FerricStore.FlowOptions
open Text BasicCommands

def boolFields : List String :=
  ["consistent_projection", "full", "idempotent", "include_cold", "independent", "local_cache",
    "override", "overwrite", "reclaim_expired", "replace", "rev", "terminal_only",
    "terminal_local_only", "values"]

def maxFlowActiveMs : ℤ := 31536000000

/-- `_require_arg` for an argument after the keyword at `idx`. -/
def requireNext (rest : List Value) (offset idx : ℕ) (option : Str) : Except Err Value :=
  match rest[offset]? with
  | some v => .ok v
  | none => invalid (option++lit " is missing argument "++number (idx+offset+2))

def requireNonnegativeCount (label : Str) : Value → Except Err ℕ
  | .int n =>
    if n < 0 then invalid (label++lit " count must be a non-negative integer")
    else .ok n.toNat
  | _ => invalid (label++lit " count must be a non-negative integer")

/-- `consume_counted_arguments`: the counted values and the arguments after them. -/
def consumeCountedArguments (label : Str) (width : ℕ) :
    List Value → Except Err (List Value × List Value)
  | [] => invalid (label++lit " requires a count")
  | countArg::rest => do
    let count ← requireNonnegativeCount label countArg
    if count*width > rest.length then
      invalid (label++lit " count exceeds the remaining arguments")
    else .ok (rest.take (count*width), rest.drop (count*width))

def appendByte (b : Bytes) : Value → Except Err Value
  | .int n => if 0 ≤ n ∧ n < 256 then .ok (.bytearray (b++[UInt8.ofNat n.toNat]))
      else .error .valueError
  | .bool x => .ok (.bytearray (b++[if x then 1 else 0]))
  | _ => .error .typeError

/-- The method `append` of a value. -/
def appendMethod : Value → Except Err (Value → Except Err Value)
  | .list xs => .ok fun x => .ok (.list (xs++[x]))
  | .bytearray b => .ok (appendByte b)
  | _ => .error .attributeError

/-- `container[name] = value` for a text `name`. -/
def setItem (name : Str) (value : Value) : Value → Except Err Value
  | .dict es => .ok (.dict (Dict.set es (.str name) value))
  | _ => .error .typeError

/-- `payload.setdefault(field, []).append(value)`. -/
def appendField (p : Payload) (field : String) (value : Except Err Value) :
    Except Err Payload := do
  let add ← appendMethod ((Dict.get? p field).getD (.list []))
  let value ← value
  let items ← add value
  .ok (Dict.set p field items)

/-- `payload.setdefault(field, {})[name] = value`. -/
def itemField (p : Payload) (field : String) (name : Str) (value : Value) :
    Except Err Payload := do
  let entries ← setItem name value ((Dict.get? p field).getD (.dict []))
  .ok (Dict.set p field entries)

def stateField (p : Payload) (value : Value) : Except Err Payload :=
  match Dict.get? p "states" with
  | some states => do
    let add ← appendMethod states
    let states ← add value
    .ok (Dict.set p "states" states)
  | none => match Dict.get? p "state" with
    | some state => .ok (Dict.set (Dict.pop p "state") "states" (.list [state, value]))
    | none => .ok (Dict.set p "state" value)

def ifStateField (p : Payload) (value : Value) : Payload :=
  match Dict.get? p "if_state" with
  | some (.list xs) => Dict.set p "if_state" (.list (xs++[value]))
  | some existing => Dict.set p "if_state" (.list [existing, value])
  | none => Dict.set p "if_state" value

/-- `normalize_optional_max_active_ms`, its `ValueError` as the option map shows it. -/
def normalizeOptionalMaxActiveMs (rt : Runtime) : Value → Except Err Value
  | .none => .ok .none
  | .str s =>
    if rt.lowerText s = lit "infinity" then .ok (.str (lit "INFINITY"))
    else invalid (lit "max_active_ms must be a positive integer or infinity")
  | .float bits =>
    if bits = 0x7FF0000000000000#64 then .ok (.str (lit "INFINITY"))
    else invalid (lit "max_active_ms must be a positive integer or infinity")
  | .int n =>
    if 1 ≤ n ∧ n ≤ maxFlowActiveMs then .ok (.int n)
    else invalid (lit "max_active_ms must be between 1 and 31536000000, or infinity")
  | _ => invalid (lit "max_active_ms must be a positive integer or infinity")

def mappedField (option : Str) : Option String :=
  (flowOptionFieldNames.find? fun e => lit e.1 = option).map Prod.snd

def fieldValue (rt : Runtime) (field : String) (value : Value) : Except Err Value :=
  if field = "max_active_ms" then normalizeOptionalMaxActiveMs rt value
  else if field ∈ boolFields then (rt.coerceBool value).map .bool
  else .ok value

/-- A value named by text, as `VALUE_REF`, `ATTRIBUTE` and their like take it. -/
def namedOption (rt : Runtime) (field : String) (idx : ℕ) (option : Str) (rest : List Value)
    (p : Payload) : Except Err (Payload × ℕ) := do
  let name ← rt.text (← requireNext rest 0 idx option)
  let value ← requireNext rest 1 idx option
  let p ← itemField p field name value
  .ok (p, 3)

def nameOption (rt : Runtime) (field : String) (idx : ℕ) (option : Str) (rest : List Value)
    (p : Payload) : Except Err (Payload × ℕ) := do
  let p ← appendField p field do
    let arg ← requireNext rest 0 idx option
    let name ← rt.text arg
    .ok (.str name)
  .ok (p, 2)

def payloadOption (rt : Runtime) (idx : ℕ) (option : Str) (rest : List Value)
    (valid : List Bool) (p : Payload) : Except Err (Payload × ℕ) :=
  if payloadIsFlag rt valid rest then .ok (Dict.set p "payload" (.bool true), 1)
  else do
    let value ← requireNext rest 0 idx option
    .ok (Dict.set p "payload" value, 2)

/-- `VALUE` names a value to read when the command takes names only, and the name
comes before the list it joins. -/
def valueOption (rt : Runtime) (namesOnly : Bool) (idx : ℕ) (option : Str)
    (rest : List Value) (p : Payload) : Except Err (Payload × ℕ) :=
  if namesOnly then do
    let name ← rt.text (← requireNext rest 0 idx option)
    let p ← appendField p "values" (.ok (.str name))
    .ok (p, 2)
  else namedOption rt "values" idx option rest p

def fieldOption (rt : Runtime) (idx : ℕ) (option : Str) (rest : List Value) (p : Payload) :
    Except Err (Payload × ℕ) :=
  match mappedField option with
  | none => invalid (lit "FerricStore protocol transport does not support option "++option)
  | some field => do
    let value ← requireNext rest 0 idx option
    let value ← fieldValue rt field value
    .ok (Dict.set p field value, 2)

/-- The options that collect names or named values, and the plain fields. -/
def collectOption (rt : Runtime) (idx : ℕ) (option : Str) (rest : List Value) (p : Payload) :
    Except Err (Payload × ℕ) :=
  if option = lit "VALUE_REF" then namedOption rt "value_refs" idx option rest p
  else if option = lit "DROP_VALUE" then nameOption rt "drop_values" idx option rest p
  else if option = lit "OVERRIDE_VALUE" then nameOption rt "override_values" idx option rest p
  else if option = lit "ATTRIBUTE" then namedOption rt "attributes" idx option rest p
  else if option = lit "ATTRIBUTE_MERGE" then
    namedOption rt "attributes_merge" idx option rest p
  else if option = lit "STATE_META" then namedOption rt "state_meta" idx option rest p
  else if option = lit "ATTRIBUTE_DELETE" then
    nameOption rt "attributes_delete" idx option rest p
  else fieldOption rt idx option rest p

/-- The options that hold states or the return mode. -/
def stateOption (rt : Runtime) (namesOnly : Bool) (idx : ℕ) (option : Str)
    (rest : List Value) (p : Payload) : Except Err (Payload × ℕ) :=
  if option = lit "STATE" then do
    let value ← requireNext rest 0 idx option
    let p ← stateField p value
    .ok (p, 2)
  else if option = lit "IF_STATE" then do
    let value ← requireNext rest 0 idx option
    .ok (ifStateField p value, 2)
  else if option = lit "RETURN" then do
    let mode ← rt.text (← requireNext rest 0 idx option)
    .ok (Dict.set p "return" (.str (rt.lowerText mode)), 2)
  else if option = lit "VALUE" then valueOption rt namesOnly idx option rest p
  else collectOption rt idx option rest p

/-- One option of the map, with the number of arguments it covers. -/
def optionStep (rt : Runtime) (namesOnly : Bool) (idx : ℕ) (option : Str) (rest : List Value)
    (valid : List Bool) (p : Payload) : Except Err (Payload × ℕ) :=
  if option = lit "NOPAYLOAD" then .ok (Dict.set p "payload" (.bool false), 1)
  else if option = lit "PAYLOAD" then payloadOption rt idx option rest valid p
  else if option = lit "PARTITIONS" then do
    let segment ← consumeCountedArguments option 1 rest
    .ok (Dict.set p "partition_keys" (.list segment.1), 2+segment.1.length)
  else stateOption rt namesOnly idx option rest p

/-- The loop of `_option_map`; `skip` arguments still belong to the last option. -/
def optionWalk (rt : Runtime) (namesOnly : Bool) :
    ℕ → ℕ → Payload → List Value → List Bool → Except Err Payload
  | _, _, p, [], _ => .ok p
  | idx, skip+1, p, _::rest, valid => optionWalk rt namesOnly (idx+1) skip p rest valid.tail
  | idx, 0, p, arg::rest, valid => do
    let next ← optionStep rt namesOnly idx (rt.commandToken arg) rest valid.tail p
    optionWalk rt namesOnly (idx+1) (next.2-1) next.1 rest valid.tail

/-- `_option_map`. -/
def optionMap (rt : Runtime) (namesOnly : Bool) (args : List Value) : Except Err Payload := do
  let valid ← flowOptionPlan rt args
  optionWalk rt namesOnly 0 0 [] args valid

/-!
## What an option does

Every option of the map covers a number of arguments that its keyword decides,
all of them present. `PARTITION` and `PARTITIONS` fill the two partition fields
and no other option touches them.
-/

/-- The number of arguments the map reads for a keyword. -/
def optionSpan (rt : Runtime) (namesOnly : Bool) (option : Str) (rest : List Value)
    (valid : List Bool) : ℕ :=
  if option = lit "NOPAYLOAD" then 1
  else if option = lit "PAYLOAD" then if payloadIsFlag rt valid rest then 1 else 2
  else if option = lit "PARTITIONS" then
    match rest with
    | .int n::_ => 2+n.toNat
    | _ => 2
  else if option = lit "VALUE" then if namesOnly then 2 else 3
  else if option ∈ flowThreeValueOptions.map lit then 3
  else 2

/-- The keys stay distinct, and the partition fields stay as they were. -/
structure Keeps (p q : Payload) : Prop where
  nodup : (p.map Prod.fst).Nodup → (q.map Prod.fst).Nodup
  key : Dict.get? q "partition_key" = Dict.get? p "partition_key"
  keys : Dict.get? q "partition_keys" = Dict.get? p "partition_keys"

theorem Keeps.set (p : Payload) (field : String) (v : Value) (h : field ≠ "partition_key")
    (hs : field ≠ "partition_keys") : Keeps p (Dict.set p field v) :=
  ⟨Dict.nodup_set p field v, Dict.get?_set_ne p _ _ v h, Dict.get?_set_ne p _ _ v hs⟩

theorem Keeps.pop (p : Payload) (field : String) (h : field ≠ "partition_key")
    (hs : field ≠ "partition_keys") : Keeps p (Dict.pop p field) :=
  ⟨Dict.nodup_pop p field, by rw [Dict.get?_pop, if_neg h], by rw [Dict.get?_pop, if_neg hs]⟩

theorem Keeps.trans {p q r : Payload} (h : Keeps p q) (k : Keeps q r) : Keeps p r :=
  ⟨fun hp => k.nodup (h.nodup hp), k.key.trans h.key, k.keys.trans h.keys⟩

/-- The steps that fill a field other than the partition fields. -/
structure Other (p : Payload) (span : ℕ) (rest : List Value) (next : Payload × ℕ) : Prop where
  keeps : Keeps p next.1
  span : next.2 = span
  inside : next.2 ≤ rest.length+1

theorem requireNext_ok {rest : List Value} {offset idx : ℕ} {option : Str} {v : Value}
    (h : requireNext rest offset idx option = .ok v) : offset < rest.length := by
  unfold requireNext at h
  split at h
  · next w hw => exact (List.getElem?_eq_some_iff.mp hw).1
  · cases h

theorem appendField_keeps {p q : Payload} {field : String} {value : Except Err Value}
    (hf : field ≠ "partition_key") (hs : field ≠ "partition_keys")
    (h : appendField p field value = .ok q) : Keeps p q ∧ ∃ v, value = .ok v := by
  obtain ⟨add, -, h⟩ := except_bind_eq_ok h
  obtain ⟨v, hv, h⟩ := except_bind_eq_ok h
  obtain ⟨items, -, h⟩ := except_bind_eq_ok h
  cases h
  exact ⟨Keeps.set p field items hf hs, v, hv⟩

theorem itemField_keeps {p q : Payload} {field : String} {name : Str} {value : Value}
    (hf : field ≠ "partition_key") (hs : field ≠ "partition_keys")
    (h : itemField p field name value = .ok q) : Keeps p q := by
  obtain ⟨entries, -, h⟩ := except_bind_eq_ok h
  cases h
  exact Keeps.set p field entries hf hs

theorem stateField_keeps {p q : Payload} {value : Value} (h : stateField p value = .ok q) :
    Keeps p q := by
  unfold stateField at h
  split at h
  · obtain ⟨add, -, h⟩ := except_bind_eq_ok h
    obtain ⟨states, -, h⟩ := except_bind_eq_ok h
    cases h
    exact Keeps.set p "states" states (by decide) (by decide)
  · split at h
    · cases h
      exact (Keeps.pop p "state" (by decide) (by decide)).trans
        (Keeps.set _ "states" _ (by decide) (by decide))
    · cases h
      exact Keeps.set p "state" value (by decide) (by decide)

theorem ifStateField_keeps (p : Payload) (value : Value) : Keeps p (ifStateField p value) := by
  unfold ifStateField
  split <;> exact Keeps.set p "if_state" _ (by decide) (by decide)

theorem namedOption_other {rt : Runtime} {field : String} {idx : ℕ} {option : Str}
    {rest : List Value} {p : Payload} {next : Payload × ℕ} (hf : field ≠ "partition_key")
    (hs : field ≠ "partition_keys")
    (h : namedOption rt field idx option rest p = .ok next) : Other p 3 rest next := by
  obtain ⟨arg, -, h⟩ := except_bind_eq_ok h
  obtain ⟨name, -, h⟩ := except_bind_eq_ok h
  obtain ⟨value, hv, h⟩ := except_bind_eq_ok h
  obtain ⟨q, hq, h⟩ := except_bind_eq_ok h
  cases h
  have hl := requireNext_ok hv
  exact ⟨itemField_keeps hf hs hq, rfl, Nat.succ_le_succ hl⟩

theorem nameOption_other {rt : Runtime} {field : String} {idx : ℕ} {option : Str}
    {rest : List Value} {p : Payload} {next : Payload × ℕ} (hf : field ≠ "partition_key")
    (hs : field ≠ "partition_keys")
    (h : nameOption rt field idx option rest p = .ok next) : Other p 2 rest next := by
  obtain ⟨q, hq, h⟩ := except_bind_eq_ok h
  cases h
  obtain ⟨hk, v, hv⟩ := appendField_keeps hf hs hq
  obtain ⟨arg, ha, -⟩ := except_bind_eq_ok hv
  have hl := requireNext_ok ha
  exact ⟨hk, rfl, Nat.succ_le_succ hl⟩

theorem payloadOption_other {rt : Runtime} {idx : ℕ} {option : Str} {rest : List Value}
    {valid : List Bool} {p : Payload} {next : Payload × ℕ}
    (h : payloadOption rt idx option rest valid p = .ok next) :
    Other p (if payloadIsFlag rt valid rest then 1 else 2) rest next := by
  unfold payloadOption at h
  split at h
  · next hflag =>
    cases h
    exact ⟨Keeps.set p _ _ (by decide) (by decide), by rw [if_pos hflag], by simp⟩
  · next hflag =>
    obtain ⟨value, hv, h⟩ := except_bind_eq_ok h
    cases h
    have hl := requireNext_ok hv
    exact ⟨Keeps.set p _ _ (by decide) (by decide), by rw [if_neg hflag], Nat.succ_le_succ hl⟩

theorem valueOption_other {rt : Runtime} {namesOnly : Bool} {idx : ℕ} {option : Str}
    {rest : List Value} {p : Payload} {next : Payload × ℕ}
    (h : valueOption rt namesOnly idx option rest p = .ok next) :
    Other p (if namesOnly then 2 else 3) rest next := by
  unfold valueOption at h
  split at h
  · next hn =>
    obtain ⟨arg, ha, h⟩ := except_bind_eq_ok h
    obtain ⟨name, -, h⟩ := except_bind_eq_ok h
    obtain ⟨q, hq, h⟩ := except_bind_eq_ok h
    cases h
    have hl := requireNext_ok ha
    exact ⟨(appendField_keeps (by decide) (by decide) hq).1, by rw [if_pos hn],
      Nat.succ_le_succ hl⟩
  · next hn =>
    have ho := namedOption_other (by decide) (by decide) h
    rw [if_neg hn]
    exact ho

theorem partitionFields_named (e : String × String) (h : e ∈ flowOptionFieldNames) :
    e.2 ≠ "partition_keys" ∧ (e.2 = "partition_key" → e.1 = "PARTITION") := by
  revert e
  decide +kernel

theorem fieldOption_other {rt : Runtime} {idx : ℕ} {option : Str} {rest : List Value}
    {p : Payload} {next : Payload × ℕ} (hp : option ≠ lit "PARTITION")
    (h : fieldOption rt idx option rest p = .ok next) : Other p 2 rest next := by
  unfold fieldOption at h
  split at h
  · cases h
  · next field hm =>
    obtain ⟨value, hv, h⟩ := except_bind_eq_ok h
    obtain ⟨set, -, h⟩ := except_bind_eq_ok h
    cases h
    obtain ⟨e, he, rfl⟩ := Option.map_eq_some_iff.mp hm
    have hnamed := partitionFields_named e (List.mem_of_find?_eq_some he)
    have hopt : lit e.1 = option := by simpa using List.find?_some he
    have hl := requireNext_ok hv
    refine ⟨Keeps.set p _ _ ?_ hnamed.1, rfl, Nat.succ_le_succ hl⟩
    intro hk
    exact hp (hopt ▸ hnamed.2 hk ▸ rfl)

theorem fieldOption_partition {rt : Runtime} {idx : ℕ} {rest : List Value} {p : Payload}
    {next : Payload × ℕ} (h : fieldOption rt idx (lit "PARTITION") rest p = .ok next) :
    ∃ v more, rest = v::more ∧ next = (Dict.set p "partition_key" v, 2) := by
  have hm : mappedField (lit "PARTITION") = some "partition_key" := by decide +kernel
  simp only [fieldOption, hm] at h
  obtain ⟨value, hv, h⟩ := except_bind_eq_ok h
  obtain ⟨set, hs, h⟩ := except_bind_eq_ok h
  cases h
  cases rest with
  | nil => cases hv
  | cons v more =>
    have hv : v = value := by simpa [requireNext] using hv
    have hvalue : fieldValue rt "partition_key" value = .ok value := by
      simp [fieldValue, boolFields]
    rw [hvalue] at hs
    cases hs
    exact ⟨value, more, by rw [hv], rfl⟩

theorem consumeCounted_ok {label : Str} {rest : List Value} {segment : List Value × List Value}
    (h : consumeCountedArguments label 1 rest = .ok segment) :
    ∃ n more, rest = .int n::more ∧ 0 ≤ n ∧ n.toNat ≤ more.length ∧
      segment.1 = more.take n.toNat := by
  cases rest with
  | nil => cases h
  | cons count more =>
    obtain ⟨m, hm, h⟩ := except_bind_eq_ok h
    split at h
    · cases h
    · next hle =>
      cases h
      unfold requireNonnegativeCount at hm
      split at hm
      · next n =>
        split at hm
        · cases hm
        · next hn =>
          cases hm
          exact ⟨n, more, rfl, by omega, by omega, by simp⟩
      · cases hm

theorem collectOption_other {rt : Runtime} {idx : ℕ} {option : Str} {rest : List Value}
    {p : Payload} {next : Payload × ℕ} (hp : option ≠ lit "PARTITION")
    (hv : option ≠ lit "VALUE") (h : collectOption rt idx option rest p = .ok next) :
    Other p (if option ∈ flowThreeValueOptions.map lit then 3 else 2) rest next := by
  have hthree : option ∈ flowThreeValueOptions.map lit ↔ option = lit "ATTRIBUTE" ∨
      option = lit "ATTRIBUTE_MERGE" ∨ option = lit "STATE_META" ∨
      option = lit "VALUE_REF" := by
    simp only [flowThreeValueOptions, List.map_cons, List.map_nil, List.mem_cons,
      List.not_mem_nil, or_false, hv, false_or]
  unfold collectOption at h
  by_cases hr : option = lit "VALUE_REF"
  · rw [if_pos hr] at h
    rw [if_pos (hthree.mpr (by simp [hr]))]
    exact namedOption_other (by decide) (by decide) h
  rw [if_neg hr] at h
  by_cases hd : option = lit "DROP_VALUE"
  · rw [if_pos hd] at h
    rw [if_neg (by simp [hd, lit_inj, flowThreeValueOptions])]
    exact nameOption_other (by decide) (by decide) h
  rw [if_neg hd] at h
  by_cases ho : option = lit "OVERRIDE_VALUE"
  · rw [if_pos ho] at h
    rw [if_neg (by simp [ho, lit_inj, flowThreeValueOptions])]
    exact nameOption_other (by decide) (by decide) h
  rw [if_neg ho] at h
  by_cases ha : option = lit "ATTRIBUTE"
  · rw [if_pos ha] at h
    rw [if_pos (hthree.mpr (by simp [ha]))]
    exact namedOption_other (by decide) (by decide) h
  rw [if_neg ha] at h
  by_cases hm : option = lit "ATTRIBUTE_MERGE"
  · rw [if_pos hm] at h
    rw [if_pos (hthree.mpr (by simp [hm]))]
    exact namedOption_other (by decide) (by decide) h
  rw [if_neg hm] at h
  by_cases hs : option = lit "STATE_META"
  · rw [if_pos hs] at h
    rw [if_pos (hthree.mpr (by simp [hs]))]
    exact namedOption_other (by decide) (by decide) h
  rw [if_neg hs] at h
  rw [if_neg (by simp [hthree, ha, hm, hs, hr])]
  by_cases hdel : option = lit "ATTRIBUTE_DELETE"
  · rw [if_pos hdel] at h
    exact nameOption_other (by decide) (by decide) h
  · rw [if_neg hdel] at h
    exact fieldOption_other hp h

theorem stateOption_other {rt : Runtime} {namesOnly : Bool} {idx : ℕ} {option : Str}
    {rest : List Value} {p : Payload} {next : Payload × ℕ} (hp : option ≠ lit "PARTITION")
    (h : stateOption rt namesOnly idx option rest p = .ok next) :
    Other p (if option = lit "VALUE" then if namesOnly then 2 else 3
      else if option ∈ flowThreeValueOptions.map lit then 3 else 2) rest next := by
  have htwo (hm : option ∈ ["STATE", "IF_STATE", "RETURN"].map lit) :
      (if option = lit "VALUE" then if namesOnly then 2 else 3
        else if option ∈ flowThreeValueOptions.map lit then 3 else 2) = 2 := by
    simp only [List.map_cons, List.map_nil, List.mem_cons, List.not_mem_nil, or_false] at hm
    rcases hm with rfl | rfl | rfl <;> simp [lit_inj, flowThreeValueOptions]
  unfold stateOption at h
  by_cases hs : option = lit "STATE"
  · rw [if_pos hs] at h
    obtain ⟨value, hv, h⟩ := except_bind_eq_ok h
    obtain ⟨q, hq, h⟩ := except_bind_eq_ok h
    cases h
    have hl := requireNext_ok hv
    exact ⟨stateField_keeps hq, (htwo (by simp [hs])).symm, Nat.succ_le_succ hl⟩
  rw [if_neg hs] at h
  by_cases hi : option = lit "IF_STATE"
  · rw [if_pos hi] at h
    obtain ⟨value, hv, h⟩ := except_bind_eq_ok h
    cases h
    have hl := requireNext_ok hv
    exact ⟨ifStateField_keeps p value, (htwo (by simp [hi])).symm, Nat.succ_le_succ hl⟩
  rw [if_neg hi] at h
  by_cases hr : option = lit "RETURN"
  · rw [if_pos hr] at h
    obtain ⟨arg, ha, h⟩ := except_bind_eq_ok h
    obtain ⟨mode, -, h⟩ := except_bind_eq_ok h
    cases h
    have hl := requireNext_ok ha
    exact ⟨Keeps.set p _ _ (by decide) (by decide), (htwo (by simp [hr])).symm,
      Nat.succ_le_succ hl⟩
  rw [if_neg hr] at h
  by_cases hv : option = lit "VALUE"
  · rw [if_pos hv] at h
    rw [if_pos hv]
    exact valueOption_other h
  · rw [if_neg hv] at h
    rw [if_neg hv]
    exact collectOption_other hp hv h

theorem optionStep_partition (rt : Runtime) (namesOnly : Bool) (idx : ℕ) (rest : List Value)
    (valid : List Bool) (p : Payload) :
    optionStep rt namesOnly idx (lit "PARTITION") rest valid p =
      fieldOption rt idx (lit "PARTITION") rest p := by
  simp only [optionStep, stateOption, collectOption, lit_inj, String.reduceEq, if_false]

/-- What one option can do to the fields, and how far it reaches. -/
theorem optionStep_cases {rt : Runtime} {namesOnly : Bool} {idx : ℕ} {option : Str}
    {rest : List Value} {valid : List Bool} {p : Payload} {next : Payload × ℕ}
    (h : optionStep rt namesOnly idx option rest valid p = .ok next) :
    (option = lit "PARTITION" ∧ ∃ v more, rest = v::more ∧
      next = (Dict.set p "partition_key" v, 2)) ∨
    (option = lit "PARTITIONS" ∧ ∃ n more, rest = .int n::more ∧ 0 ≤ n ∧
      n.toNat ≤ more.length ∧
      next = (Dict.set p "partition_keys" (.list (more.take n.toNat)), 2+n.toNat)) ∨
    (option ≠ lit "PARTITION" ∧ option ≠ lit "PARTITIONS" ∧
      Other p (optionSpan rt namesOnly option rest valid) rest next) := by
  by_cases hpart : option = lit "PARTITION"
  · subst hpart
    rw [optionStep_partition] at h
    exact .inl ⟨rfl, fieldOption_partition h⟩
  by_cases hparts : option = lit "PARTITIONS"
  · subst hparts
    simp only [optionStep, lit_inj, String.reduceEq, if_false, if_true] at h
    obtain ⟨segment, hsegment, h⟩ := except_bind_eq_ok h
    cases h
    obtain ⟨n, more, rfl, hn, hle, hs⟩ := consumeCounted_ok hsegment
    exact .inr (.inl ⟨rfl, n, more, rfl, hn, hle, by simp [hs, hle]⟩)
  refine .inr (.inr ⟨hpart, hparts, ?_⟩)
  unfold optionStep at h
  unfold optionSpan
  by_cases hn : option = lit "NOPAYLOAD"
  · rw [if_pos hn] at h
    cases h
    rw [if_pos hn]
    exact ⟨Keeps.set p _ _ (by decide) (by decide), rfl, by simp⟩
  rw [if_neg hn] at h
  rw [if_neg hn]
  by_cases hpay : option = lit "PAYLOAD"
  · rw [if_pos hpay] at h
    rw [if_pos hpay]
    exact payloadOption_other h
  rw [if_neg hpay, if_neg hparts] at h
  rw [if_neg hpay, if_neg hparts]
  exact stateOption_other hpart h

theorem optionStep_span {rt : Runtime} {namesOnly : Bool} {idx : ℕ} {option : Str}
    {rest : List Value} {valid : List Bool} {p : Payload} {next : Payload × ℕ}
    (h : optionStep rt namesOnly idx option rest valid p = .ok next) :
    next.2 = optionSpan rt namesOnly option rest valid := by
  rcases optionStep_cases h with
    ⟨rfl, v, more, rfl, rfl⟩ | ⟨rfl, n, more, rfl, -, -, rfl⟩ | ⟨-, -, hother⟩
  · simp [optionSpan, lit_inj, flowThreeValueOptions]
  · simp [optionSpan, lit_inj]
  · exact hother.span

end FerricStore.FlowOptions
