import FerricStore.ManyArguments

/-!
# The fallback of a claim's return mode

Claims and reclaims write their type, states, worker and partitions as plain text in front of
the `RETURN` option. The fallback for servers without the rich compact modes looks for the
first `RETURN` in the list and rewrites what stands behind it. It finds the option exactly when
none of the texts in front of it is that word.
-/

set_option autoImplicit false

namespace FerricStore.ClaimReturnFallback
open Text MutationArguments
open ManyArguments (appendBool)

/-! ## The builders -/

structure ClaimCall where
  type : Str
  state : Option Str := none
  states : Option (List Str) := none
  worker : Str
  partitionKey : Option PartitionKey := none
  partitionKeys : Option (List PartitionKey) := none
  leaseMs : ℤ := 30000
  limit : ℤ := 1
  priority : Option ℤ := none
  nowMs : Option ℤ := none
  blockMs : Option ℤ := none
  reclaimExpired : Option Bool := none
  reclaimRatio : Option ℤ := none
  includeRecord : Bool := true
  payload : Option Bool := none
  payloadMaxBytes : Option ℤ := none
  values : Option (List Str) := none
  valueMaxBytes : Option ℤ := none
  includeState : Bool := false
  includeAttributes : Bool := true

def validatePositiveInt (n : ℤ) : Except Err Unit :=
  if n ≤ 0 then .error .valueError else .ok ()

def validateOptionalNonnegativeInt : Option ℤ → Except Err Unit
  | none => .ok ()
  | some n => if n < 0 then .error .valueError else .ok ()

def validateReclaimRatio : Option ℤ → Except Err Unit
  | none => .ok ()
  | some n => if n < 0 ∨ 100 < n then .error .valueError else .ok ()

def validateStringSequence (allowEmpty : Bool) : Option (List Str) → Except Err Unit
  | none => .ok ()
  | some items =>
    if (!allowEmpty && items.isEmpty) || items.any List.isEmpty then .error .valueError else .ok ()

def PartitionKey.isEmpty : PartitionKey → Bool
  | .text s => s.isEmpty
  | .bytes b => b.isEmpty

/-- `validate_partition_key_sequence` with `allow_empty=False`. -/
def validatePartitionKeySequence : Option (List PartitionKey) → Except Err Unit
  | none => .ok ()
  | some keys =>
    if keys.isEmpty || keys.any PartitionKey.isEmpty then .error .valueError else .ok ()

/-- `_append_payload_read`. -/
def appendPayloadRead (payload : Option Bool) (maxBytes : Option ℤ) : List Value :=
  if payload = some false then [word "NOPAYLOAD"]
  else (if payload = some true ∨ maxBytes ≠ none then [word "PAYLOAD"] else [])++
    intArgs "MAXBYTES" maxBytes

/-- `_append_value_return`. -/
def appendValueReturn (values : Option (List Str)) (maxBytes : Option ℤ) : List Value :=
  appendNames "VALUE" (values.getD [])++intArgs "VALUE_MAX_BYTES" maxBytes

inductive ClaimKind where
  | claimDue
  | reclaim
  deriving DecidableEq, Repr

section Builders

variable (clock : ℤ) (c : ClaimCall)

/-- The value of the `RETURN` option. -/
def returnMode : ClaimKind → String
  | .claimDue =>
    if c.includeRecord then "RECORDS"
    else if c.includeState ∧ c.includeAttributes then "JOBS_COMPACT_STATE_ATTRS"
    else if c.includeState then "JOBS_COMPACT_STATE"
    else if c.includeAttributes then "JOBS_COMPACT_ATTRS"
    else "JOBS_COMPACT"
  | .reclaim =>
    if c.includeRecord then "RECORDS"
    else if c.includeAttributes then "JOBS_COMPACT_ATTRS"
    else "JOBS_COMPACT"

def partitionsArgs : List Value :=
  c.partitionKeys.elim [] fun keys =>
    word "PARTITIONS"::.int keys.length::keys.map PartitionKey.value

/-- The arguments in front of the priority. -/
def beforePriority : ClaimKind → List Value
  | .claimDue => [word "FLOW.CLAIM_DUE", .str c.type]++
      (c.states.elim (append "STATE" (c.state.map .str)) (appendNames "STATE")++
      ([word "WORKER", .str c.worker, word "LEASE_MS", .int c.leaseMs, word "LIMIT",
        .int c.limit]++
      (intArgs "NOW" c.nowMs++(append "PARTITION" (c.partitionKey.map PartitionKey.value)++
        partitionsArgs c))))
  | .reclaim =>
    [word "FLOW.RECLAIM", .str c.type, word "WORKER", .str c.worker, word "LEASE_MS",
      .int c.leaseMs, word "LIMIT", .int c.limit, word "NOW", .int (c.nowMs.getD clock)]++
      (append "PARTITION" (c.partitionKey.map PartitionKey.value)++partitionsArgs c)

/-- The arguments behind the `RETURN` option. -/
def afterReturn : ClaimKind → List Value
  | .claimDue => intArgs "BLOCK" c.blockMs++(appendPayloadRead c.payload c.payloadMaxBytes++
      (appendValueReturn c.values c.valueMaxBytes++
        (appendBool "RECLAIM_EXPIRED" c.reclaimExpired++intArgs "RECLAIM_RATIO" c.reclaimRatio)))
  | .reclaim => appendPayloadRead c.payload c.payloadMaxBytes++
      appendValueReturn c.values c.valueMaxBytes

/-- `_claim_due_command_args`. -/
def claimDueCommandArgs : Except Err (List Value) := do
  validatePositiveInt c.leaseMs
  validatePositiveInt c.limit
  validateOptionalNonnegativeInt c.nowMs
  validateOptionalNonnegativeInt c.blockMs
  validateReclaimRatio c.reclaimRatio
  validateStringSequence false c.states
  validatePartitionKeySequence c.partitionKeys
  if c.state ≠ none ∧ c.states ≠ none then .error .valueError
  else if c.partitionKey ≠ none ∧ c.partitionKeys ≠ none then .error .valueError
  else do
    let priority ← appendPriority c.priority
    validateOptionalNonnegativeInt c.payloadMaxBytes
    validateStringSequence true c.values
    validateOptionalNonnegativeInt c.valueMaxBytes
    .ok (beforePriority clock c .claimDue++(priority++
      word "RETURN"::word (returnMode c .claimDue)::afterReturn c .claimDue))

/-- `_reclaim_command_args`. -/
def reclaimCommandArgs : Except Err (List Value) := do
  validatePositiveInt c.leaseMs
  validatePositiveInt c.limit
  validateOptionalNonnegativeInt c.nowMs
  validatePartitionKeySequence c.partitionKeys
  if c.partitionKey ≠ none ∧ c.partitionKeys ≠ none then .error .valueError
  else do
    let priority ← appendPriority c.priority
    validateOptionalNonnegativeInt c.payloadMaxBytes
    validateStringSequence true c.values
    validateOptionalNonnegativeInt c.valueMaxBytes
    .ok (beforePriority clock c .reclaim++(priority++
      word "RETURN"::word (returnMode c .reclaim)::afterReturn c .reclaim))

def claimArgs : ClaimKind → Except Err (List Value)
  | .claimDue => claimDueCommandArgs clock c
  | .reclaim => reclaimCommandArgs clock c

end Builders

/-! ## The search -/

def isReturn : Value → Bool
  | .str s => s = lit "RETURN"
  | _ => false

def richReturnModes : List String :=
  ["JOBS_COMPACT_ATTRS", "JOBS_COMPACT_STATE", "JOBS_COMPACT_STATE_ATTRS"]

def isRich : Value → Bool
  | .str s => s ∈ richReturnModes.map lit
  | _ => false

/-- `_claim_return_compat_args`. -/
def claimReturnCompatArgs (args : List Value) : Option (List Value) :=
  match args.findIdx? isReturn with
  | none => none
  | some returnIndex =>
    match args[returnIndex+1]? with
    | none => none
    | some mode =>
      if isRich mode then some (args.set (returnIndex+1) (word "JOBS_COMPACT")) else none

section Search

theorem isReturn_iff {v : Value} : isReturn v = true ↔ v = word "RETURN" := by
  cases v <;> simp [isReturn, word]

theorem word_isReturn {s : String} : isReturn (word s) = true ↔ s = "RETURN" := by
  rw [isReturn_iff, word, word, Value.str.injEq, lit_inj]

theorem word_isRich {s : String} : isRich (word s) = true ↔ s ∈ richReturnModes := by
  simp [isRich, word, richReturnModes, lit_inj]

theorem findIdx?_of_not_mem {args : List Value} (h : word "RETURN" ∉ args) :
    args.findIdx? isReturn = none := by
  rw [List.findIdx?_eq_none_iff]
  intro v hv
  rw [Bool.eq_false_iff, ne_eq, isReturn_iff]
  rintro rfl
  exact h hv

theorem findIdx?_return {before rest : List Value} (h : word "RETURN" ∉ before) :
    (before++word "RETURN"::rest).findIdx? isReturn = some before.length := by
  rw [List.findIdx?_append, findIdx?_of_not_mem h, List.findIdx?_cons,
    if_pos (word_isReturn.mpr rfl)]
  simp

/-- The fallback rewrites what stands behind the first `RETURN`. -/
theorem claimReturnCompatArgs_split {before rest : List Value} {mode : Value}
    (h : word "RETURN" ∉ before) :
    claimReturnCompatArgs (before++word "RETURN"::mode::rest) =
      if isRich mode then some (before++word "RETURN"::word "JOBS_COMPACT"::rest) else none := by
  have hmode : (before++word "RETURN"::mode::rest)[before.length+1]? = some mode := by
    rw [List.getElem?_append_right (by omega)]
    simp
  rw [claimReturnCompatArgs, findIdx?_return h]
  simp only [hmode]
  rw [List.set_append_right _ _ (by omega)]
  simp

/-- What stands behind the first `RETURN`. -/
def behindReturn : List Value → Option Value
  | [] => none
  | v::vs => if isReturn v then vs.head? else behindReturn vs

/-- A rich mode stands behind the first `RETURN`. -/
def RichBehind (args : List Value) : Prop := ∃ mode ∈ behindReturn args, isRich mode = true

instance (args : List Value) : Decidable (RichBehind args) :=
  inferInstanceAs (Decidable (∃ mode ∈ behindReturn args, isRich mode = true))

theorem behindReturn_append {before rest : List Value} (h : word "RETURN" ∉ before) :
    behindReturn (before++rest) = behindReturn rest := by
  induction before with
  | nil => rfl
  | cons v before ih =>
    rw [List.mem_cons, not_or] at h
    have hv : ¬isReturn v = true := fun hv => h.1 (isReturn_iff.mp hv).symm
    rw [List.cons_append, behindReturn, if_neg hv, ih h.2]

theorem behindReturn_of_not_mem {args : List Value} (h : word "RETURN" ∉ args) :
    behindReturn args = none := by
  simpa [behindReturn] using @behindReturn_append args [] h

theorem behindReturn_first {before rest : List Value} (h : word "RETURN" ∉ before) :
    behindReturn (before++word "RETURN"::rest) = rest.head? := by
  rw [behindReturn_append h, behindReturn, if_pos (word_isReturn.mpr rfl)]

theorem claimReturnCompatArgs_isNone {args : List Value} :
    claimReturnCompatArgs args = none ↔ ¬RichBehind args := by
  by_cases h : word "RETURN" ∈ args
  · obtain ⟨before, rest, rfl, hbefore⟩ := List.eq_append_cons_of_mem h
    rw [RichBehind, behindReturn_first hbefore]
    cases rest with
    | nil => simp [claimReturnCompatArgs, findIdx?_return hbefore]
    | cons mode rest =>
      rw [claimReturnCompatArgs_split hbefore]
      simp
  · simp [claimReturnCompatArgs, findIdx?_of_not_mem h, RichBehind, behindReturn_of_not_mem h]

/-- A rich mode behind the last `RETURN` is rewritten exactly when no other stands before. -/
theorem claimReturnCompatArgs_rich {before rest : List Value} {mode : Value}
    (hmode : isRich mode = true) :
    claimReturnCompatArgs (before++word "RETURN"::mode::rest) =
        some (before++word "RETURN"::word "JOBS_COMPACT"::rest) ↔
      word "RETURN" ∉ before := by
  refine ⟨fun h hmem => ?_, fun h => by rw [claimReturnCompatArgs_split h, if_pos hmode]⟩
  obtain ⟨first, second, rfl, hfirst⟩ := List.eq_append_cons_of_mem hmem
  obtain ⟨v, tail, htail⟩ : ∃ v tail, second++word "RETURN"::mode::rest = v::tail := by
    cases second <;> simp
  rw [List.append_assoc, List.cons_append, htail, claimReturnCompatArgs_split hfirst] at h
  split_ifs at h with hv
  have h := Option.some.inj h
  rw [List.append_assoc, List.append_cancel_left_eq, List.cons_append, List.cons.injEq] at h
  have hnot : ¬isRich (word "JOBS_COMPACT") = true := by
    rw [word_isRich]
    decide
  have hsame : mode = word "JOBS_COMPACT" := by
    cases second with
    | nil =>
      obtain ⟨-, rfl⟩ := List.cons.inj htail
      exact (List.cons.inj (List.cons.inj h.2).2).1
    | cons w second =>
      obtain ⟨-, rfl⟩ := List.cons.inj htail
      have h := List.append_cancel_left (List.cons.inj h.2).2
      exact (List.cons.inj (List.cons.inj h).2).1
  exact hnot (hsame ▸ hmode)

end Search

/-! ## The texts of a claim -/

section Options

def optionTokens (options : List (String × Value)) : List Value :=
  options.flatMap fun o => [word o.1, o.2]

/-- A word that is neither the option nor one of its rich modes. -/
def Plain (s : String) : Prop := s ≠ "RETURN" ∧ s ∉ richReturnModes

instance (s : String) : Decidable (Plain s) := inferInstanceAs (Decidable (_ ∧ _))

variable {options : List (String × Value)} (hplain : ∀ o ∈ options, Plain o.1)

include hplain

theorem mem_optionTokens :
    word "RETURN" ∈ optionTokens options ↔ word "RETURN" ∈ options.map Prod.snd := by
  simp only [optionTokens, List.mem_flatMap, List.mem_cons, List.not_mem_nil, or_false,
    List.mem_map]
  constructor
  · rintro ⟨o, ho, heq | heq⟩
    · exact absurd (word_isReturn.mp (isReturn_iff.mpr heq.symm)) (hplain o ho).1
    · exact ⟨o, ho, heq.symm⟩
  · rintro ⟨o, ho, heq⟩
    exact ⟨o, ho, .inr heq.symm⟩

/-- The word behind the value of an option is never a rich mode. -/
theorem richBehind_optionTokens {rest : List Value} (hrest : ∀ v ∈ rest.head?, ¬isRich v = true) :
    RichBehind (optionTokens options++rest) ↔
      word "RETURN" ∉ options.map Prod.snd ∧ RichBehind rest := by
  induction options with
  | nil => simp [optionTokens]
  | cons o options ih =>
    have ih := ih fun o ho => hplain o (List.mem_cons_of_mem _ ho)
    have hword : ¬isReturn (word o.1) = true :=
      word_isReturn.not.mpr (hplain o List.mem_cons_self).1
    have hsplit : optionTokens (o::options)++rest =
        word o.1::o.2::(optionTokens options++rest) := rfl
    have hnext : ∀ v ∈ (optionTokens options++rest).head?, ¬isRich v = true := by
      cases options with
      | nil => exact hrest
      | cons p options =>
        rintro v hv
        obtain rfl : word p.1 = v := Option.some.inj hv
        exact word_isRich.not.mpr (hplain p (by simp)).2
    rw [hsplit, RichBehind, behindReturn, if_neg hword, behindReturn, List.map_cons,
      List.mem_cons, not_or, and_assoc, ← ih]
    by_cases hvalue : isReturn o.2 = true
    · rw [if_pos hvalue]
      refine ⟨fun ⟨v, hv, hrich⟩ => absurd hrich (hnext v hv), fun h => ?_⟩
      exact absurd (isReturn_iff.mp hvalue).symm h.1
    · rw [if_neg hvalue]
      exact ⟨fun h => ⟨fun heq => hvalue (isReturn_iff.mpr heq.symm), h⟩, fun h => h.2⟩

end Options

/-- Behind a list of keys only the keys themselves count. -/
theorem richBehind_append {keys rest : List Value} (hhead : ∀ v ∈ rest.head?, ¬isRich v = true)
    (hrest : ¬RichBehind rest) : RichBehind (keys++rest) ↔ RichBehind keys := by
  by_cases h : word "RETURN" ∈ keys
  · obtain ⟨before, after, rfl, hbefore⟩ := List.eq_append_cons_of_mem h
    rw [List.append_assoc, List.cons_append, RichBehind, RichBehind, behindReturn_first hbefore,
      behindReturn_first hbefore]
    cases after with
    | nil =>
      refine ⟨fun ⟨v, hv, hrich⟩ => absurd hrich (hhead v hv), fun ⟨v, hv, _⟩ => ?_⟩
      exact absurd hv (by simp)
    | cons v after => rfl
  · rw [RichBehind, behindReturn_append h]
    refine ⟨fun hr => absurd hr hrest, fun ⟨v, hv, _⟩ => ?_⟩
    rw [behindReturn_of_not_mem h] at hv
    exact absurd hv (by simp)

section Calls

variable (clock : ℤ) (c : ClaimCall)

def statesArgs : List Str := c.states.getD c.state.toList

/-- The type, the states, the worker and the partition of a claim. -/
def ClaimCall.names : ClaimKind → List Value
  | .claimDue => .str c.type::((statesArgs c).map Value.str++
      (.str c.worker::(c.partitionKey.map PartitionKey.value).toList))
  | .reclaim => .str c.type::.str c.worker::(c.partitionKey.map PartitionKey.value).toList

/-- The partitions of a claim. -/
def ClaimCall.keys : List Value := (c.partitionKeys.getD []).map PartitionKey.value

/-- What the texts of a claim have to be for the fallback to find the option: no name and no
key is the word `RETURN`, or the mode is not rich, and no rich mode stands behind the first
such key unless a name hides it. -/
def FallbackSafe (kind : ClaimKind) : Prop :=
  if returnMode c kind ∈ richReturnModes then
    word "RETURN" ∉ c.names kind ∧ word "RETURN" ∉ c.keys
  else word "RETURN" ∈ c.names kind ∨ ¬RichBehind c.keys

/-- The named options in front of the keys. -/
def namedOptions : ClaimKind → List (String × Value)
  | .claimDue => ("FLOW.CLAIM_DUE", .str c.type)::((statesArgs c).map (fun s => ("STATE", .str s))++
      ([("WORKER", .str c.worker), ("LEASE_MS", .int c.leaseMs), ("LIMIT", .int c.limit)]++
      (c.nowMs.toList.map (fun n => ("NOW", .int n))++
        c.partitionKey.toList.map fun key => ("PARTITION", key.value))))
  | .reclaim => [("FLOW.RECLAIM", .str c.type), ("WORKER", .str c.worker),
      ("LEASE_MS", .int c.leaseMs), ("LIMIT", .int c.limit), ("NOW", .int (c.nowMs.getD clock))]++
      c.partitionKey.toList.map fun key => ("PARTITION", key.value)

def optionWords : List String :=
  ["FLOW.CLAIM_DUE", "FLOW.RECLAIM", "STATE", "WORKER", "LEASE_MS", "LIMIT", "NOW", "PARTITION"]

theorem optionWords_plain : ∀ s ∈ optionWords, Plain s := by decide

theorem namedOptions_plain (kind : ClaimKind) : ∀ o ∈ namedOptions clock c kind, Plain o.1 := by
  intro o ho
  apply optionWords_plain
  cases kind <;>
    simp only [namedOptions, List.mem_cons, List.mem_append, List.mem_map, List.not_mem_nil,
      or_false] at ho
  · obtain rfl | ⟨s, -, rfl⟩ | (rfl | rfl | rfl) | ⟨n, -, rfl⟩ | ⟨key, -, rfl⟩ := ho <;>
      simp [optionWords]
  · obtain (rfl | rfl | rfl | rfl | rfl) | ⟨key, -, rfl⟩ := ho <;>
      simp [optionWords]

theorem mem_namedOptions (kind : ClaimKind) :
    word "RETURN" ∈ (namedOptions clock c kind).map Prod.snd ↔ word "RETURN" ∈ c.names kind := by
  have hint : ∀ n : ℤ, Value.int n ≠ word "RETURN" := fun n h => nomatch h
  have hint' : ∀ n : ℤ, word "RETURN" ≠ .int n := fun n h => nomatch h
  cases kind <;> simp [namedOptions, ClaimCall.names, hint, hint']

theorem optionTokens_append (xs ys : List (String × Value)) :
    optionTokens (xs++ys) = optionTokens xs++optionTokens ys := List.flatMap_append

theorem optionTokens_states : optionTokens ((statesArgs c).map fun s => ("STATE", .str s)) =
    c.states.elim (append "STATE" (c.state.map .str)) (appendNames "STATE") := by
  unfold statesArgs
  cases c.states with
  | none => cases c.state <;> rfl
  | some states =>
    simp only [optionTokens, List.flatMap_map]
    rfl

theorem beforePriority_eq (kind : ClaimKind) :
    beforePriority clock c kind = optionTokens (namedOptions clock c kind)++partitionsArgs c := by
  have hnow : intArgs "NOW" c.nowMs =
      optionTokens (c.nowMs.toList.map fun n => ("NOW", .int n)) := by
    cases c.nowMs <;> rfl
  have hkey : append "PARTITION" (c.partitionKey.map PartitionKey.value) =
      optionTokens (c.partitionKey.toList.map fun key => ("PARTITION", key.value)) := by
    cases c.partitionKey <;> rfl
  cases kind with
  | claimDue =>
    rw [beforePriority, hkey, hnow, ← optionTokens_states, namedOptions,
      show ∀ o os, optionTokens (o::os) = [word o.1, o.2]++optionTokens os from fun _ _ => rfl]
    simp only [optionTokens_append, List.append_assoc]
    rfl
  | reclaim =>
    rw [beforePriority, hkey, namedOptions, optionTokens_append, List.append_assoc]
    rfl

theorem return_mem_partitions : word "RETURN" ∈ partitionsArgs c ↔ word "RETURN" ∈ c.keys := by
  unfold partitionsArgs ClaimCall.keys
  cases c.partitionKeys with
  | none => simp
  | some keys => simp [word, lit_inj]

theorem richBehind_partitions : RichBehind (partitionsArgs c) ↔ RichBehind c.keys := by
  unfold partitionsArgs ClaimCall.keys
  cases c.partitionKeys with
  | none => rfl
  | some keys =>
    have hword : word "RETURN" ∉ [word "PARTITIONS", .int keys.length] := by
      simp [word, lit_inj]
    have hsplit : word "PARTITIONS"::.int keys.length::keys.map PartitionKey.value =
        [word "PARTITIONS", .int keys.length]++keys.map PartitionKey.value := rfl
    simp only [Option.elim_some, Option.getD_some]
    rw [hsplit, RichBehind, behindReturn_append hword]
    rfl

/-- The arguments in front of the `RETURN` option. -/
def beforeReturn (kind : ClaimKind) : List Value :=
  beforePriority clock c kind++intArgs "PRIORITY" c.priority

theorem claimArgs_eq {kind : ClaimKind} {args : List Value}
    (h : claimArgs clock c kind = .ok args) :
    args = beforeReturn clock c kind++
      word "RETURN"::word (returnMode c kind)::afterReturn c kind := by
  rw [beforeReturn, List.append_assoc]
  cases kind with
  | claimDue =>
    obtain ⟨-, -, h⟩ := except_bind_eq_ok h
    obtain ⟨-, -, h⟩ := except_bind_eq_ok h
    obtain ⟨-, -, h⟩ := except_bind_eq_ok h
    obtain ⟨-, -, h⟩ := except_bind_eq_ok h
    obtain ⟨-, -, h⟩ := except_bind_eq_ok h
    obtain ⟨-, -, h⟩ := except_bind_eq_ok h
    obtain ⟨-, -, h⟩ := except_bind_eq_ok h
    split_ifs at h
    obtain ⟨priority, hpriority, h⟩ := except_bind_eq_ok h
    obtain ⟨-, -, h⟩ := except_bind_eq_ok h
    obtain ⟨-, -, h⟩ := except_bind_eq_ok h
    obtain ⟨-, -, h⟩ := except_bind_eq_ok h
    rw [← Except.ok.inj h, appendPriority_ok hpriority]
  | reclaim =>
    obtain ⟨-, -, h⟩ := except_bind_eq_ok h
    obtain ⟨-, -, h⟩ := except_bind_eq_ok h
    obtain ⟨-, -, h⟩ := except_bind_eq_ok h
    obtain ⟨-, -, h⟩ := except_bind_eq_ok h
    split_ifs at h
    obtain ⟨priority, hpriority, h⟩ := except_bind_eq_ok h
    obtain ⟨-, -, h⟩ := except_bind_eq_ok h
    obtain ⟨-, -, h⟩ := except_bind_eq_ok h
    obtain ⟨-, -, h⟩ := except_bind_eq_ok h
    rw [← Except.ok.inj h, appendPriority_ok hpriority]

theorem return_not_mem_priority : word "RETURN" ∉ intArgs "PRIORITY" c.priority := by
  cases c.priority <;> simp [intArgs, append, word, lit_inj]

theorem return_not_mem_before (kind : ClaimKind) :
    word "RETURN" ∉ beforeReturn clock c kind ↔
      word "RETURN" ∉ c.names kind ∧ word "RETURN" ∉ c.keys := by
  rw [beforeReturn, beforePriority_eq, List.mem_append, List.mem_append,
    mem_optionTokens (namedOptions_plain clock c kind), mem_namedOptions, return_mem_partitions]
  simp [return_not_mem_priority]

theorem richBehind_claim {kind : ClaimKind} (hmode : returnMode c kind ∉ richReturnModes) :
    RichBehind (beforeReturn clock c kind++
      word "RETURN"::word (returnMode c kind)::afterReturn c kind) ↔
        word "RETURN" ∉ c.names kind ∧ RichBehind c.keys := by
  have hword : ∀ s, Plain s ∨ s = "RETURN" → ¬isRich (word s) = true := by
    rintro s (h | rfl)
    · exact word_isRich.not.mpr h.2
    · exact word_isRich.not.mpr (by decide)
  have hhead : ∀ v ∈ (intArgs "PRIORITY" c.priority++
      word "RETURN"::word (returnMode c kind)::afterReturn c kind).head?, ¬isRich v = true := by
    cases c.priority with
    | none =>
      rintro _ ⟨⟩
      exact hword _ (.inr rfl)
    | some n =>
      rintro _ ⟨⟩
      exact hword _ (.inl (by decide))
  have hrest : ¬RichBehind (intArgs "PRIORITY" c.priority++
      word "RETURN"::word (returnMode c kind)::afterReturn c kind) := by
    rintro ⟨v, hv, hrich⟩
    rw [behindReturn_first (return_not_mem_priority c)] at hv
    obtain rfl : word (returnMode c kind) = v := Option.some.inj hv
    exact hmode (word_isRich.mp hrich)
  have hkeys : ∀ v ∈ (partitionsArgs c++(intArgs "PRIORITY" c.priority++
      word "RETURN"::word (returnMode c kind)::afterReturn c kind)).head?, ¬isRich v = true := by
    unfold partitionsArgs
    cases c.partitionKeys with
    | none => exact hhead
    | some keys =>
      rintro _ ⟨⟩
      exact hword _ (.inl (by decide))
  rw [beforeReturn, beforePriority_eq, List.append_assoc, List.append_assoc,
    richBehind_optionTokens (namedOptions_plain clock c kind) hkeys, mem_namedOptions,
    richBehind_append hhead hrest, richBehind_partitions]

end Calls

/-- The fallback of a claim differs from its arguments exactly in the value of `RETURN`, when
that is a rich mode, and is missing otherwise, exactly when the texts of the claim are safe. -/
theorem claim_return_fallback_exact (kind : ClaimKind) (clock : ℤ) (c : ClaimCall)
    (args : List Value) (h : claimArgs clock c kind = .ok args) :
    args = beforeReturn clock c kind++
        word "RETURN"::word (returnMode c kind)::afterReturn c kind ∧
      (claimReturnCompatArgs args =
          (if returnMode c kind ∈ richReturnModes then
            some (beforeReturn clock c kind++
              word "RETURN"::word "JOBS_COMPACT"::afterReturn c kind)
          else none) ↔
        FallbackSafe c kind) := by
  have hargs := claimArgs_eq clock c h
  refine ⟨hargs, ?_⟩
  rw [hargs, FallbackSafe]
  by_cases hmode : returnMode c kind ∈ richReturnModes
  · rw [if_pos hmode, if_pos hmode, claimReturnCompatArgs_rich (word_isRich.mpr hmode),
      return_not_mem_before]
  · rw [if_neg hmode, if_neg hmode, claimReturnCompatArgs_isNone, richBehind_claim clock c hmode,
      not_and_or, not_not]

/-- A claim of two partitions. -/
def keyedClaim (first second : String) : ClaimCall where
  type := lit "order"
  worker := lit "w1"
  partitionKeys := some [.text (lit first), .text (lit second)]
  includeRecord := false

theorem claim_return_fallback_exact_keys :
    ∃ args, claimArgs 0 (keyedClaim "a" "b") .claimDue = .ok args ∧
      claimReturnCompatArgs args =
        some (beforeReturn 0 (keyedClaim "a" "b") .claimDue++
          [word "RETURN", word "JOBS_COMPACT"]) :=
  ⟨_, rfl, (claim_return_fallback_exact .claimDue 0 (keyedClaim "a" "b") _ rfl).2.mpr
    (by simp [FallbackSafe, returnMode, keyedClaim, richReturnModes, ClaimCall.names,
      ClaimCall.keys, statesArgs, PartitionKey.value, word, lit_inj])⟩

/-- The words of a claim of the partitions `RETURN` and `key` with a mode. -/
def returnClaimArgs (key mode : String) : List Value :=
  [word "FLOW.CLAIM_DUE", word "order", word "WORKER", word "w1", word "LEASE_MS", .int 30000,
    word "LIMIT", .int 1, word "PARTITIONS", .int 2, word "RETURN", word key, word "RETURN",
    word mode]

/-- A partition behind the partition `RETURN` is rewritten, the mode stays. -/
theorem claim_return_fallback_misses :
    claimArgs 0 (keyedClaim "RETURN" "JOBS_COMPACT_ATTRS") .claimDue =
        .ok (returnClaimArgs "JOBS_COMPACT_ATTRS" "JOBS_COMPACT_ATTRS") ∧
      claimReturnCompatArgs (returnClaimArgs "JOBS_COMPACT_ATTRS" "JOBS_COMPACT_ATTRS") =
        some (returnClaimArgs "JOBS_COMPACT" "JOBS_COMPACT_ATTRS") ∧
      some (returnClaimArgs "JOBS_COMPACT" "JOBS_COMPACT_ATTRS") ≠
        some (returnClaimArgs "JOBS_COMPACT_ATTRS" "JOBS_COMPACT") := by
  refine ⟨rfl, ?_, by simp [returnClaimArgs, word, lit_inj]⟩
  have hbefore : word "RETURN" ∉
      (returnClaimArgs "JOBS_COMPACT_ATTRS" "JOBS_COMPACT_ATTRS").take 10 := by
    simp [returnClaimArgs, word, lit_inj]
  refine (claimReturnCompatArgs_split hbefore).trans ?_
  rw [if_pos (word_isRich.mpr (by decide))]
  rfl

end FerricStore.ClaimReturnFallback
