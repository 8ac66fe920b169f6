import FerricStore.HttpValues

/-!
# Results of commands over HTTP

`_command_result` reads one result of a response. The request of a caller alone first checks
every number of the results and reports a built-in error as an invalid result; the coalescer
calls `_command_result` and nothing else. The two agree exactly on results with finite
numbers whose value is text that UTF-8 can encode.
-/

set_option autoImplicit false

namespace FerricStore.HttpResults

open Text HttpValues

inductive ServerErrorKind where
  | flowAlreadyExists
  | flowWrongState
  | stalePolicyGeneration
  | staleLease
  | flowNotFound
  | lockHeld
  | lockNotOwned
  | invalidCommand
  | ferricStore
  deriving DecidableEq, Repr

structure RetryMetadata where
  retryable : Bool
  safeToRetry : Bool
  retryAfterMs : Option ℤ
  deriving DecidableEq, Repr

/-- What a command over HTTP raises. -/
inductive CallError where
  /-- An `HttpError` with status 200 that is not retryable. -/
  | invalid (message errorCode : Str) (raw : Value)
  | overloaded (message : Str) (raw : Value) (reason : Option Str) (retry : RetryMetadata)
  | server (kind : ServerErrorKind) (message : Str) (raw : Value) (retry : RetryMetadata)
  /-- An error of the interpreter that the code does not catch. -/
  | raised (e : Err)
  /-- A `ValueError` with a text of the code. -/
  | valueError (message : String)
  /-- An `HttpError` of the request itself. -/
  | request (message errorCode : String)
  deriving DecidableEq

/-- `_optional_retry_after_ms` -/
def optionalRetryAfterMs : Value → Option ℤ
  | .int n => if 0 ≤ n ∧ n ≤ 2^64-1 then some n else none
  | _ => none

/-- The interpreter, with the two patterns that `classify_server_error` searches for. -/
structure Interpreter extends Runtime where
  intField : Str → Option ℤ
  strField : Str → Option Str

def mentions (texts : List String) (lower : Str) : Bool :=
  texts.any fun t => lower.tails.any (lit t).isPrefixOf

def errorKind (lower : Str) : ServerErrorKind :=
  if mentions ["already exists"] lower then .flowAlreadyExists
  else if mentions ["wrong state"] lower then .flowWrongState
  else if mentions ["stale flow policy generation", "stale policy generation"] lower then
    .stalePolicyGeneration
  else if mentions ["stale flow lease", "stale lease", "stale token"] lower then .staleLease
  else if mentions ["not found", "does not exist"] lower then .flowNotFound
  else if mentions ["lock is held", "held by another owner"] lower then .lockHeld
  else if mentions ["not the lock owner", "caller is not the lock owner"] lower then .lockNotOwned
  else if mentions ["wrong number of arguments", "syntax error"] lower then .invalidCommand
  else .ferricStore

def classifyServerError (rt : Interpreter) (message : Str) (raw : Value)
    (retry : RetryMetadata) : CallError :=
  let lower := rt.lowerText message
  if mentions ["overloaded", "busy"] lower then
    .overloaded message raw (rt.strField lower)
      { retry with retryAfterMs := retry.retryAfterMs.or (rt.intField lower) }
  else if errorKind lower = .stalePolicyGeneration then
    .server .stalePolicyGeneration message raw ⟨false, false, none⟩
  else .server (errorKind lower) message raw retry

/-- `mapping.get(name)` -/
def field (entries : List (Key × Value)) (name : String) : Value :=
  (Dict.get? entries (.str (lit name))).getD .none

def textOr (default : Str) : Value → Str
  | .str s => s
  | _ => default

def isTrue : Value → Bool
  | .bool b => b
  | _ => false

def entriesOf : Value → List (Key × Value)
  | .dict es => es
  | _ => []

def replaceUnderscores (s : Str) : Str := s.map fun c => if c = point 0x5F then point 0x20 else c

/-- The error of a result whose status is not ok. -/
def statusError (rt : Interpreter) (result : List (Key × Value)) (status : Str) : CallError :=
  let details := entriesOf (field result "error")
  let code := textOr (lit "upstream_error") (field details "code")
  let message := textOr (replaceUnderscores code) (field details "message")
  let retryAfterMs := optionalRetryAfterMs (field details "retry_after_ms")
  if code = lit "overload" ∨ code = lit "overloaded" then
    .overloaded message (.dict result) (some code) ⟨true, true, retryAfterMs⟩
  else if status = lit "forbidden" ∨ code = lit "forbidden" then
    .invalid message code (.dict result)
  else classifyServerError rt message (.dict result)
    ⟨isTrue (field details "retryable"), isTrue (field details "safe_to_retry"), retryAfterMs⟩

def invalidResponse (message : String) (raw : Value) : CallError :=
  .invalid (lit message) (lit "invalid_response") raw

/-- The value of an ok result before text becomes bytes. -/
def resultValue (keys : OtherKeys) (binary : Bool) (result : List (Key × Value)) :
    Except CallError Value :=
  if binary then
    match decodeBinaryValue keys (field result "value") with
    | .ok v => .ok v
    | .error _ => .error (invalidResponse
        "FerricStore HTTP endpoint returned a malformed binary value" (.dict result))
  else .ok (field result "value")

def toNative (v : Value) : Except CallError Value :=
  match nativeValue v with
  | .ok w => .ok w
  | .error e => .error (.raised e)

def commandResult (rt : Interpreter) (keys : OtherKeys) (binary : Bool) :
    Value → Except CallError Value
  | .dict result =>
    match field result "status" with
    | .str status =>
      if status = lit "ok" then resultValue keys binary result >>= toNative
      else .error (statusError rt result status)
    | _ => .error (invalidResponse
        "FerricStore HTTP endpoint command result has an invalid status" (.dict result))
  | v => .error (invalidResponse
      "FerricStore HTTP endpoint command result is not an object" v)

mutual
/-- `_validate_json_value` raises nothing. -/
def validJsonValue : Value → Bool
  | .float bits => isFinite bits
  | .list xs => validJsonItems xs
  | .dict es => validJsonEntries es
  | _ => true
def validJsonItems : List Value → Bool
  | [] => true
  | x::xs => validJsonValue x && validJsonItems xs
def validJsonEntries : List (Key × Value) → Bool
  | [] => true
  | (_, v)::es => validJsonValue v && validJsonEntries es
end

def invalidResult (raw : Value) : CallError :=
  invalidResponse "FerricStore HTTP endpoint returned an invalid command result" (.list [raw])

/-- The result of the only command of a request, as `_execute_batch_with_deadline` has it. -/
def batchResult (rt : Interpreter) (keys : OtherKeys) (binary : Bool) (result : Value) :
    Except CallError Value :=
  if validJsonValue result then
    match commandResult rt keys binary result with
    | .error (.raised _) => .error (invalidResult result)
    | outcome => outcome
  else .error (invalidResult result)

mutual
/-- `_native_value` can encode every text of the value. -/
def encodable : Value → Bool
  | .str s => (encode s).isSome
  | .list xs => encodableItems xs
  | .dict es => encodableEntries es
  | _ => true
def encodableItems : List Value → Bool
  | [] => true
  | x::xs => encodable x && encodableItems xs
def encodableEntries : List (Key × Value) → Bool
  | [] => true
  | (.str s, v)::es => (encode s).isSome && (encodable v && encodableEntries es)
  | (_, v)::es => encodable v && encodableEntries es
end

/-- The value that an ok result carries, untagged. -/
def carriedValue (keys : OtherKeys) (binary : Bool) : Value → Option Value
  | .dict result =>
    if field result "status" = .str (lit "ok") then (resultValue keys binary result).toOption
    else none
  | _ => none

/-- Numbers are finite and the text of an ok result can be encoded. -/
def wellFormedResult (keys : OtherKeys) (binary : Bool) (result : Value) : Bool :=
  validJsonValue result && (carriedValue keys binary result).all encodable

theorem isOk_encodeText (s : Str) : (encodeText s).isOk = (encode s).isSome := by
  unfold encodeText
  cases encode s <;> rfl

theorem isOk_bind {α β : Type} (x : Except Err α) (f : α → Except Err β) (p : Bool)
    (h : ∀ a, (f a).isOk = p) : (x >>= f).isOk = (x.isOk && p) := by
  cases x with
  | error e => rfl
  | ok a => exact (h a).trans (Bool.true_and p).symm

mutual
theorem isOk_nativeValue (v : Value) : (nativeValue v).isOk = encodable v := by
  match v with
  | .none => rfl
  | .bool _ => rfl
  | .int _ => rfl
  | .float _ => rfl
  | .str s =>
    rw [nativeValue, isOk_bind _ _ true fun _ => rfl, isOk_encodeText, Bool.and_true]
    rfl
  | .bytes _ => rfl
  | .bytearray _ => rfl
  | .list xs =>
    rw [nativeValue, isOk_bind _ _ true fun _ => rfl, isOk_nativeItems xs, Bool.and_true]
    rfl
  | .tuple _ => rfl
  | .dict es =>
    rw [nativeValue, isOk_bind _ _ true fun _ => rfl, isOk_nativeEntries es, Bool.and_true]
    rfl
  | .object _ _ => rfl
theorem isOk_nativeItems (xs : List Value) : (nativeItems xs).isOk = encodableItems xs := by
  match xs with
  | [] => rfl
  | x::xs =>
    rw [nativeItems, encodableItems, isOk_bind _ _ (encodableItems xs) fun _ => ?_,
      isOk_nativeValue x]
    rw [isOk_bind _ _ true fun _ => rfl, isOk_nativeItems xs, Bool.and_true]
theorem isOk_nativeEntries (es : List (Key × Value)) (acc : Dict Key Value) :
    (nativeEntries es acc).isOk = encodableEntries es := by
  match es with
  | [] => rfl
  | (k, v)::es =>
    have hrest : ∀ key : Key, ((nativeValue v >>= fun item =>
        nativeEntries es (Dict.set acc key item)).isOk) =
          (encodable v && encodableEntries es) := by
      intro key
      rw [isOk_bind _ _ (encodableEntries es) fun item => isOk_nativeEntries es _,
        isOk_nativeValue v]
    rw [nativeEntries, isOk_bind _ _ _ hrest]
    cases k with
    | str s =>
      rw [nativeKey, isOk_bind _ _ true fun _ => rfl, isOk_encodeText, Bool.and_true,
        encodableEntries]
    | bytes b => rfl
    | other id => rfl
end

section
variable (rt : Interpreter) (keys : OtherKeys) (binary : Bool)

theorem toNative_raised {v : Value} {e : Err} (h : toNative v = .error (.raised e)) :
    encodable v = false := by
  rw [← isOk_nativeValue]
  unfold toNative at h
  cases hv : nativeValue v with
  | ok w =>
    rw [hv] at h
    cases h
  | error e => rfl

theorem toNative_not_encodable {v : Value} (h : encodable v = false) :
    ∃ e, toNative v = .error (.raised e) := by
  rw [← isOk_nativeValue] at h
  unfold toNative
  cases hv : nativeValue v with
  | ok w =>
    rw [hv] at h
    cases h
  | error e => exact ⟨e, rfl⟩

theorem resultValue_not_raised {result : List (Key × Value)} {e : Err} :
    resultValue keys binary result ≠ .error (.raised e) := by
  unfold resultValue
  cases binary with
  | false => nofun
  | true =>
    simp only [if_true]
    cases decodeBinaryValue keys (field result "value") <;> nofun

theorem statusError_not_raised {result : List (Key × Value)} {status : Str} {e : Err} :
    statusError rt result status ≠ .raised e := by
  unfold statusError classifyServerError
  simp only
  split_ifs <;> nofun

/-- A built-in error comes out of `_command_result` only from text that cannot be encoded. -/
theorem commandResult_raised_iff (result : Value) :
    (∃ e, commandResult rt keys binary result = .error (.raised e)) ↔
      (carriedValue keys binary result).all encodable = false := by
  cases result with
  | dict es =>
    cases hstatus : field es "status" with
    | str status =>
      by_cases hok : status = lit "ok"
      · simp only [commandResult, carriedValue, hstatus, hok, if_true]
        cases hvalue : resultValue keys binary es with
        | error e =>
          refine ⟨?_, nofun⟩
          rintro ⟨e', he⟩
          obtain rfl : e = .raised e' := Except.error.inj he
          exact absurd hvalue (resultValue_not_raised keys binary)
        | ok v =>
          rw [except_ok_bind]
          exact ⟨fun ⟨e, he⟩ => toNative_raised he, toNative_not_encodable⟩
      · simp only [commandResult, carriedValue, hstatus, hok, if_false, Value.str.injEq]
        refine ⟨?_, nofun⟩
        rintro ⟨e, he⟩
        exact absurd (Except.error.inj he) (statusError_not_raised rt)
    | _ =>
      simp only [commandResult, carriedValue, hstatus, reduceCtorEq, if_false]
      refine ⟨?_, nofun⟩
      rintro ⟨e, he⟩
      cases he
  | _ =>
    refine ⟨?_, nofun⟩
    rintro ⟨e, he⟩
    cases he

/-- The error of a result names the result, never a list of results. -/
theorem statusError_ne_invalidResult {result : List (Key × Value)} {status : Str} {raw : Value} :
    statusError rt result status ≠ invalidResult raw := by
  unfold statusError classifyServerError invalidResult invalidResponse
  simp only
  split_ifs <;> simp

theorem resultValue_ne_invalidResult {result : List (Key × Value)} {raw : Value} :
    resultValue keys binary result ≠ .error (invalidResult raw) := by
  unfold resultValue invalidResult invalidResponse
  cases binary with
  | false => nofun
  | true =>
    simp only [if_true]
    cases decodeBinaryValue keys (field result "value") with
    | ok v => nofun
    | error e => simp

theorem toNative_ne_invalidResult {v raw : Value} : toNative v ≠ .error (invalidResult raw) := by
  unfold toNative
  cases nativeValue v with
  | ok w => nofun
  | error e => simp [invalidResult, invalidResponse]

theorem invalidResult_message :
    lit "FerricStore HTTP endpoint command result is not an object" ≠
      lit "FerricStore HTTP endpoint returned an invalid command result" :=
  lit_inj.not.mpr (by decide)

theorem commandResult_ne_invalidResult (result raw : Value) :
    commandResult rt keys binary result ≠ .error (invalidResult raw) := by
  intro h
  cases result with
  | dict es =>
    rw [commandResult] at h
    cases hstatus : field es "status" with
    | str status =>
      rw [hstatus] at h
      dsimp only at h
      split_ifs at h with hok
      · cases hvalue : resultValue keys binary es with
        | error e =>
          rw [hvalue] at h
          obtain rfl : e = invalidResult raw := Except.error.inj h
          exact resultValue_ne_invalidResult keys binary hvalue
        | ok v =>
          rw [hvalue, except_ok_bind] at h
          exact toNative_ne_invalidResult h
      · exact statusError_ne_invalidResult rt (Except.error.inj h)
    | _ =>
      rw [hstatus] at h
      simp [invalidResult, invalidResponse] at h
  | _ =>
    have hmessage := Except.error.inj h
    simp only [invalidResult, invalidResponse, CallError.invalid.injEq] at hmessage
    exact invalidResult_message hmessage.1

/-- The coalescer reads a result as the request of a caller alone does, exactly if the
result is well formed. -/
theorem commandResult_eq_batchResult_iff (result : Value) :
    commandResult rt keys binary result = batchResult rt keys binary result ↔
      wellFormedResult keys binary result = true := by
  have hraised := commandResult_raised_iff rt keys binary result
  have hne := commandResult_ne_invalidResult rt keys binary result result
  unfold batchResult wellFormedResult
  cases hvalid : validJsonValue result with
  | false => simpa using hne
  | true =>
    rw [if_pos rfl, Bool.true_and]
    cases hall : (carriedValue keys binary result).all encodable with
    | false =>
      obtain ⟨e, he⟩ := hraised.mpr hall
      rw [he]
      simp [invalidResult, invalidResponse]
    | true =>
      refine ⟨fun _ => rfl, fun _ => ?_⟩
      have hnot : ∀ e, commandResult rt keys binary result ≠ .error (.raised e) := by
        intro e he
        have hfalse := hraised.mp ⟨e, he⟩
        rw [hall] at hfalse
        cases hfalse
      cases hresult : commandResult rt keys binary result with
      | ok v => rfl
      | error e =>
        cases e with
        | raised e => exact absurd hresult (hnot e)
        | _ => rfl

end

end FerricStore.HttpResults
