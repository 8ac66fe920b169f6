import FerricStore.RawFlowParsers

/-!
# Raw parsers and the generic builder

The generic builder reads the arguments of the raw parsers through the option map, where
`PAYLOAD` may be a flag. Where it takes the value next to it, the map reads the same pairs
and keeps the last value of every option too.
-/

set_option autoImplicit false

namespace FerricStore.RawFlowParsers
open Text Metered CompactBudget FlowCodec FlowOptions FlowCommands BasicCommands MutationArguments

section Options

variable {rt : Runtime}

/-- What the option map stores for one of the options, except where `PAYLOAD` is a flag. -/
def readPair (rt : Runtime) (p : Payload) (option : Str) (value : Value) : Except Err Payload :=
  if option = lit "RETURN" then do
    let mode ← rt.text value
    .ok (Dict.set p "return" (.str (rt.lowerText mode)))
  else .ok (Dict.set p ((mappedField option).getD "") value)

def readPairs (rt : Runtime) : Payload → List (Value × Value) → Except Err Payload
  | p, [] => .ok p
  | p, (option, value)::pairs => do
    let p ← readPair rt p (rt.commandToken option) value
    readPairs rt p pairs

def flatPairs (pairs : List (Value × Value)) : List Value := pairs.flatMap fun e => [e.1, e.2]

/-- Every `PAYLOAD` takes the value next to it, by the marks of the analysis. -/
def PayloadsTaken (rt : Runtime) : List (Value × Value) → List Bool → Prop
  | [], _ => True
  | (option, value)::pairs, table =>
    (rt.commandToken option = lit "PAYLOAD" →
      payloadIsFlag rt table.tail (value::flatPairs pairs) = false) ∧
    PayloadsTaken rt pairs table.tail.tail

theorem flatPairs_pairsOf (options : List Value) (h : options.length % 2 = 0) :
    flatPairs (pairsOf options) = options := by
  induction options using pairsOf.induct with
  | case1 option value rest ih =>
    have hrest : rest.length % 2 = 0 := by
      simp only [List.length_cons] at h
      omega
    rw [pairsOf, flatPairs, List.flatMap_cons]
    change option::value::flatPairs (pairsOf rest) = _
    rw [ih hrest]
  | case2 options hnot =>
    cases options with
    | nil => rfl
    | cons v rest =>
      cases rest with
      | nil => cases h
      | cons w rest => exact (hnot v w rest rfl).elim

theorem optionStep_pair {e : String × String} (he : e ∈ rawFields) (idx : ℕ) {value : Value}
    {rest : List Value} {valid : List Bool} {p : Payload}
    (hflag : e.1 = "PAYLOAD" → payloadIsFlag rt valid (value::rest) = false) :
    optionStep rt false idx (lit e.1) (value::rest) valid p =
      (readPair rt p (lit e.1) value).map fun q => (q, 2) := by
  obtain ⟨-, -, -, -, -, hplain⟩ := rawFields_known e he
  by_cases hreturn : e.1 = "RETURN"
  · rw [hreturn, readPair, if_pos rfl]
    simp only [optionStep, stateOption, lit_inj, String.reduceEq, if_false, if_true, requireNext,
      List.getElem?_cons_zero, except_ok_bind]
    cases rt.text value <;> rfl
  have hnot : lit e.1 ≠ lit "RETURN" := fun h => hreturn (lit_inj.mp h)
  by_cases hpayload : e.1 = "PAYLOAD"
  · have hfield : mappedField (lit "PAYLOAD") = some "payload" := by
      rw [mappedField_lit]
      decide +kernel
    rw [readPair, if_neg hnot, hpayload, hfield]
    simp only [optionStep, lit_inj, String.reduceEq, if_false, if_true, payloadOption,
      hflag hpayload, Bool.false_eq_true, requireNext, List.getElem?_cons_zero, except_ok_bind,
      Option.getD_some, Except.map]
  · have hp := hplain hpayload hreturn
    simp only [isPlain, Bool.and_eq_true, decide_eq_true_eq, Bool.not_eq_true',
      decide_eq_false_iff_not] at hp
    obtain ⟨⟨⟨⟨⟨⟨-, -⟩, hruled⟩, -⟩, hfield⟩, hmax⟩, hbool⟩ := hp
    rw [optionStep_unruled hruled, fieldOption, readPair, if_neg hnot, mappedField_lit, hfield]
    simp only [requireNext, List.getElem?_cons_zero, except_ok_bind, fieldValue, hmax, hbool,
      if_false, Option.getD_some, Except.map]

/-- Where payloads are values, the option map reads pairs. -/
theorem optionWalk_pairs {pairs : List (Value × Value)} {table : List Bool}
    (hnamed : Named rt pairs) (htaken : PayloadsTaken rt pairs table) (idx : ℕ) (p : Payload) :
    optionWalk rt false idx 0 p (flatPairs pairs) table = readPairs rt p pairs := by
  induction pairs generalizing idx p table with
  | nil => rfl
  | cons e pairs ih =>
    obtain ⟨option, value⟩ := e
    obtain ⟨k, f, hk, hname⟩ := hnamed _ List.mem_cons_self
    have hstep := @optionStep_pair rt (k, f) hk idx value (flatPairs pairs) table.tail p
      fun hp => htaken.1 (hname.trans (congrArg lit hp))
    change optionWalk rt false idx 0 p (option::value::flatPairs pairs) table = _
    rw [optionWalk, hname, hstep, readPairs, hname]
    cases readPair rt p (lit k) value with
    | error e => rfl
    | ok q =>
      exact ih (fun x hx => hnamed x (List.mem_cons_of_mem _ hx)) htaken.2 (idx+1+1) q

theorem rawFields_mapped : ∀ e ∈ rawFields, Dict.get? flowOptionFieldNames e.1 = some e.2 ∨
    e.1 = "RETURN" := by
  decide +kernel

theorem rawFields_inj : ∀ e ∈ rawFields, ∀ e' ∈ rawFields, (e.1 = e'.1 ↔ e.2 = e'.2) := by
  decide +kernel

/-- What the option map keeps of a value under a name. -/
def stored (rt : Runtime) (k : String) (v : Value) : Value :=
  if k = "RETURN" then .str (rt.lowerText ((rt.text v).toOption.getD [])) else v

theorem readPair_stored {e : String × String} (he : e ∈ rawFields) {p q : Payload} {value : Value}
    (h : readPair rt p (lit e.1) value = .ok q) : q = Dict.set p e.2 (stored rt e.1 value) := by
  unfold readPair stored at *
  by_cases hreturn : e.1 = "RETURN"
  · have hfield : e.2 = "return" :=
      (rawFields_inj e he ("RETURN", "return") (by decide)).mp hreturn
    rw [if_pos (congrArg lit hreturn)] at h
    obtain ⟨mode, hmode, h⟩ := except_bind_eq_ok h
    cases h
    rw [if_pos hreturn, hfield, hmode]
    rfl
  · have hfield : mappedField (lit e.1) = some e.2 := by
      rw [mappedField_lit]
      exact (rawFields_mapped e he).resolve_right hreturn
    rw [if_neg fun heq => hreturn (lit_inj.mp heq)] at h
    cases h
    rw [if_neg hreturn, hfield]
    rfl

theorem readPairs_get {pairs : List (Value × Value)} (hnamed : Named rt pairs) {p q : Payload}
    (h : readPairs rt p pairs = .ok q) {e : String × String} (he : e ∈ rawFields) :
    Dict.get? q e.2 = ((lastOf rt e.1 pairs).map (stored rt e.1)).or (Dict.get? p e.2) := by
  induction pairs generalizing p with
  | nil =>
    cases h
    rfl
  | cons x pairs ih =>
    obtain ⟨option, value⟩ := x
    obtain ⟨k, f, hk, hname⟩ := hnamed _ List.mem_cons_self
    obtain ⟨next, hnext, h⟩ := except_bind_eq_ok h
    simp only at hname
    rw [hname] at hnext
    rw [ih (fun y hy => hnamed y (List.mem_cons_of_mem _ hy)) h, readPair_stored hk hnext,
      Dict.get?_set, lastOf, hname]
    have hsame := rawFields_inj _ hk _ he
    simp only [lit_inj] at hsame ⊢
    by_cases heq : k = e.1
    · rw [if_pos (hsame.mp heq), if_pos heq, heq]
      cases lastOf rt e.1 pairs <;> rfl
    · rw [if_neg fun hf => heq (hsame.mpr hf), if_neg heq, Option.or_none]

theorem readPairs_others {pairs : List (Value × Value)} (hnamed : Named rt pairs) {p q : Payload}
    (h : readPairs rt p pairs = .ok q) {f : String} (hf : f ∉ rawFields.map Prod.snd) :
    Dict.get? q f = Dict.get? p f ∧ ((p.map Prod.fst).Nodup → (q.map Prod.fst).Nodup) := by
  induction pairs generalizing p with
  | nil =>
    cases h
    exact ⟨rfl, id⟩
  | cons x pairs ih =>
    obtain ⟨option, value⟩ := x
    obtain ⟨k, g, hk, hname⟩ := hnamed _ List.mem_cons_self
    obtain ⟨next, hnext, h⟩ := except_bind_eq_ok h
    simp only at hname
    rw [hname] at hnext
    obtain ⟨hget, hnodup⟩ := ih (fun y hy => hnamed y (List.mem_cons_of_mem _ hy)) h
    rw [readPair_stored hk hnext] at hget hnodup
    refine ⟨hget.trans (Dict.get?_set_ne _ _ _ _ ?_), fun hp => hnodup (Dict.nodup_set _ _ _ hp)⟩
    rintro rfl
    exact hf (List.mem_map_of_mem hk)

/-- The return modes are the only values that the option map may refuse. -/
theorem readPairs_ok_iff {pairs : List (Value × Value)} (hnamed : Named rt pairs) (p : Payload) :
    (∃ q, readPairs rt p pairs = .ok q) ↔
      ∀ e ∈ pairs, rt.commandToken e.1 = lit "RETURN" → ∃ s, rt.text e.2 = .ok s := by
  induction pairs generalizing p with
  | nil => exact ⟨fun _ e he => absurd he List.not_mem_nil, fun _ => ⟨p, rfl⟩⟩
  | cons x pairs ih =>
    obtain ⟨option, value⟩ := x
    have hrest := ih fun y hy => hnamed y (List.mem_cons_of_mem _ hy)
    rw [List.forall_mem_cons]
    by_cases hreturn : rt.commandToken option = lit "RETURN"
    · cases htext : rt.text value with
      | error e =>
        have hfails : readPairs rt p ((option, value)::pairs) = .error e := by
          rw [readPairs, readPair, if_pos hreturn, htext]
          rfl
        rw [hfails]
        refine ⟨fun ⟨_, h⟩ => (nomatch h), fun ⟨h, _⟩ => ?_⟩
        obtain ⟨s, hs⟩ := h hreturn
        cases hs
      | ok s =>
        have hon : readPairs rt p ((option, value)::pairs) =
            readPairs rt (Dict.set p "return" (.str (rt.lowerText s))) pairs := by
          rw [readPairs, readPair, if_pos hreturn, htext]
          rfl
        rw [hon, hrest]
        exact ⟨fun h => ⟨fun _ => ⟨s, rfl⟩, h⟩, fun h => h.2⟩
    · have hon : readPairs rt p ((option, value)::pairs) = readPairs rt
          (Dict.set p ((mappedField (rt.commandToken option)).getD "") value) pairs := by
        rw [readPairs, readPair, if_neg hreturn]
        rfl
      rw [hon, hrest]
      exact ⟨fun h => ⟨fun hr => (hreturn hr).elim, h⟩, fun h => h.2⟩

end Options

section Building

variable {rt : Runtime}

/-- `int` refuses what shows as an option keyword with a type or value error. -/
def KeywordNumbers (rt : Runtime) : Prop :=
  ∀ v k e, k ∈ flowOptionTokens → rt.commandToken v = lit k → rt.int v = .error e →
    e = .typeError ∨ e = .valueError

theorem nonNegativeInt_keyword (hrt : KeywordNumbers rt) {v : Value} {k : String}
    (hk : k ∈ flowOptionTokens) (hv : rt.commandToken v = lit k) :
    ∃ c, nonNegativeInt rt v = .ok c :=
  nonNegativeInt_ok fun e => hrt v k e hk hv

theorem quiet_pairs (hrt : KeywordNumbers rt) {pairs : List (Value × Value)}
    (hnamed : Named rt pairs) : Quiet rt (flatPairs pairs) := by
  induction pairs with
  | nil => trivial
  | cons e pairs ih =>
    obtain ⟨option, value⟩ := e
    obtain ⟨k, f, hk, hname⟩ := hnamed _ List.mem_cons_self
    have hrest : Named rt pairs := fun x hx => hnamed x (List.mem_cons_of_mem _ hx)
    refine ⟨fun ht => ?_, fun _ => ?_, ih hrest⟩
    · have hparts := commandToken_of_token rt option _ ht
      simp only at hname
      rw [hname, lit_inj] at hparts
      exact ((rawFields_known _ hk).2.2.2.1 hparts).elim
    · cases pairs with
      | nil => exact ⟨none, rfl⟩
      | cons x pairs =>
        obtain ⟨k', f', hk', hname'⟩ := hrest _ List.mem_cons_self
        exact nonNegativeInt_keyword hrt (rawFields_known _ hk').1 hname'

/-- What the generic builder leaves of a command whose options are pairs. -/
theorem shapedPayload_pairs (hrt : KeywordNumbers rt) {shape : FlowShape}
    (hname : shape.name ≠ "FLOW.CLAIM_DUE" ∧ shape.name ≠ "FLOW.RUN_STEPS_MANY")
    (hshape : shape.namesOnly = false ∧ shape.guards = []) {args : List Value} {fields : Payload}
    (hfields : positionalFields shape.name args 0 shape.positional = .ok fields)
    {pairs : List (Value × Value)} (hnamed : Named rt pairs)
    (hpairs : args.drop shape.positional.length = flatPairs pairs)
    (htaken : ∀ table, flowOptionPlan rt (flatPairs pairs) = .ok table →
      PayloadsTaken rt pairs table) :
    shapedPayload rt shape args = (readPairs rt [] pairs).map (Dict.update fields) := by
  obtain ⟨table, htable⟩ := (plan_ok_iff rt _).mpr (quiet_pairs hrt hnamed)
  have hmap : optionMap rt false (flatPairs pairs) = readPairs rt [] pairs := by
    rw [optionMap, htable, except_ok_bind, optionWalk_pairs hnamed (htaken table htable)]
  have hfinish (payload : Payload) : finishFields shape payload = .ok payload := by
    rw [finishFields, if_neg hname.1, if_neg hname.2, hshape.2]
    rfl
  rw [shapedPayload, hfields, except_ok_bind, hpairs, hshape.1, hmap]
  cases readPairs rt [] pairs with
  | error e => rfl
  | ok q => exact hfinish _

theorem payloadsTaken_without {pairs : List (Value × Value)}
    (h : ∀ e ∈ pairs, rt.commandToken e.1 ≠ lit "PAYLOAD") (table : List Bool) :
    PayloadsTaken rt pairs table := by
  induction pairs generalizing table with
  | nil => trivial
  | cons e pairs ih =>
    exact ⟨fun hp => (h e List.mem_cons_self hp).elim,
      ih (fun x hx => h x (List.mem_cons_of_mem _ hx)) _⟩

end Building

section Fields

variable {rt : Runtime} {pairs : List (Value × Value)} {fields q : Payload}

theorem built_option (hnamed : Named rt pairs) (h : readPairs rt [] pairs = .ok q)
    {e : String × String} (he : e ∈ rawFields) (hfields : Dict.get? fields e.2 = none) :
    Dict.get? (Dict.update fields q) e.2 = (lastOf rt e.1 pairs).map (stored rt e.1) := by
  have hnodup := (@readPairs_others rt pairs hnamed [] q h "" (by decide)).2 List.nodup_nil
  rw [Dict.get?_update _ _ _ hnodup, readPairs_get hnamed h he, hfields, Dict.get?_nil,
    Option.or_none, Option.or_none]

theorem built_positional (hnamed : Named rt pairs) (h : readPairs rt [] pairs = .ok q) {f : String}
    (hf : f ∉ rawFields.map Prod.snd) :
    Dict.get? (Dict.update fields q) f = Dict.get? fields f := by
  obtain ⟨hget, hnodup⟩ := readPairs_others hnamed h hf
  rw [Dict.get?_update _ _ _ (hnodup List.nodup_nil), hget]
  rfl

theorem plain_option (hnamed : Named rt pairs) (h : readPairs rt [] pairs = .ok q)
    {e : String × String} (he : e ∈ rawFields) (hne : e.1 ≠ "RETURN")
    (hfields : Dict.get? fields e.2 = none) :
    Dict.get? (Dict.update fields q) e.2 = lastOf rt e.1 pairs := by
  have hstored : stored rt e.1 = id := by
    funext v
    rw [stored, if_neg hne, id]
  rw [built_option hnamed h he hfields, hstored, Option.map_id, id]

section Read

variable (hnamed : Named rt pairs) (h : readPairs rt [] pairs = .ok q)
include hnamed h

theorem textField_positional {f : String} {v : Value} (hf : f ∉ rawFields.map Prod.snd)
    (hfields : Dict.get? fields f = some v) :
    textField (Dict.update fields q) f = binaryOf v := by
  rw [textField, built_positional hnamed h hf, hfields, Option.bind_some]

variable {e : String × String} (he : e ∈ rawFields) (hne : e.1 ≠ "RETURN")
  (hfields : Dict.get? fields e.2 = none)
include he hne hfields

theorem textField_option :
    textField (Dict.update fields q) e.2 = (lastOf rt e.1 pairs).bind binaryOf := by
  rw [textField, plain_option hnamed h he hne hfields]

theorem intField_option :
    intField rt (Dict.update fields q) e.2 = (lastOf rt e.1 pairs).bind (rawI64 rt) := by
  rw [intField, plain_option hnamed h he hne hfields]

theorem optionalField_option : optionalField (Dict.update fields q) e.2 =
    optionalBinaryOf ((lastOf rt e.1 pairs).getD .none) := by
  rw [optionalField, plain_option hnamed h he hne hfields]

end Read

theorem elim_none {α : Type} (o : Option Value) (φ : Value → Option α) :
    o.elim none φ = o.bind φ := by
  cases o <;> rfl

theorem elim_optional (o : Option Value) :
    o.elim (some none) optionalBinaryOf = optionalBinaryOf (o.getD .none) := by
  cases o <;> rfl

/-- The command that the generic builder gives, with a payload of fields. -/
def Builds (rt : Runtime) (policy : CompactEncodingPolicy)
    (rest exec : String → List Value → Except Err ProtocolCommand) (name : String)
    (command : Command) (payload : Payload) : Prop :=
  buildFlowProtocolCommand rt policy rest exec name command.tail =
    .ok ⟨opcode name, .fields payload, 1, 0⟩

variable {policy : CompactEncodingPolicy}
  {rest exec : String → List Value → Except Err ProtocolCommand} {shape : FlowShape}

/-- The generic builder makes a request of what the pairs and the positions give. -/
theorem builds_iff (hrt : KeywordNumbers rt)
    (hfound : flowShapes.find? (fun s => s.name = shape.name) = some shape)
    (hname : shape.name ∉ ["FLOW.CLAIM_DUE", "FLOW.RUN_STEPS_MANY", "FLOW.SPAWN_CHILDREN"])
    (hplain : shape.namesOnly = false ∧ shape.guards = []) {command : Command}
    (hfields : positionalFields shape.name command.tail 0 shape.positional = .ok fields)
    (hmeta : Dict.get? fields "indexed_state_meta" = none ∧ Dict.get? fields "state_meta" = none)
    (hnamed : Named rt pairs)
    (hpairs : command.tail.drop shape.positional.length = flatPairs pairs)
    (htaken : ∀ table, flowOptionPlan rt (flatPairs pairs) = .ok table →
      PayloadsTaken rt pairs table) (payload : Payload) :
    Builds rt policy rest exec shape.name command payload ↔
      ∃ q, readPairs rt [] pairs = .ok q ∧ payload = Dict.update fields q := by
  simp only [List.mem_cons, List.not_mem_nil, or_false, not_or] at hname
  have hshaped := shapedPayload_pairs hrt ⟨hname.1, hname.2.1⟩ hplain hfields hnamed hpairs htaken
  have hflow : flowPayload rt shape.name command.tail =
      some ((readPairs rt [] pairs).map (Dict.update fields)) := by
    rw [flowPayload, if_neg hname.2.2, hfound, Option.map_some, hshaped]
  rw [Builds, buildFlowProtocolCommand, buildNativeFlowProtocolCommand, hflow]
  cases hread : readPairs rt [] pairs with
  | error e => exact ⟨fun h => (nomatch h), fun ⟨_, h, _⟩ => (nomatch h)⟩
  | ok q =>
    have hnone {f : String} (hf : f ∉ rawFields.map Prod.snd) (hget : Dict.get? fields f = none) :
        Dict.contains (Dict.update fields q) f = false := by
      rw [Dict.contains, built_positional hnamed hread hf, hget]
      rfl
    have hindexed := hnone (by decide) hmeta.1
    have hstate := hnone (by decide) hmeta.2
    simp only [Except.map, except_ok_bind, if_neg hname.1, hindexed, hstate, Bool.false_eq_true,
      false_and, or_false, if_false, Except.ok.injEq, ProtocolCommand.mk.injEq, Body.fields.injEq,
      and_true, true_and, exists_eq_left']
    exact eq_comm

end Fields

section Results

variable {rt : Runtime} {isUpper : Str → Bool} {policy : CompactEncodingPolicy}
  {rest exec : String → List Value → Except Err ProtocolCommand} {limit : Option ℕ} {used w : ℕ}

theorem stepOption_knows : Knows limit (stepOption rt) fun name value =>
    name ≠ lit "PAYLOAD" ∧ (name = lit "RETURN" → ∃ b, binaryOf value = some b ∧
      (upperBytes b = utf8 (lit "JOBS_COMPACT") ∨ upperBytes b = utf8 (lit "JOB_COMPACT"))) := by
  intro name value o o' used w h
  rcases stepOption_cases h with
    ⟨rfl, -⟩ | ⟨rfl, -⟩ | ⟨rfl, -⟩ | ⟨rfl, -⟩ | ⟨rfl, -, hmode⟩
  · exact ⟨⟨"FENCING", "fencing_token", by decide, rfl⟩, by simp [lit_inj], by simp [lit_inj]⟩
  · exact ⟨⟨"LEASE_MS", "lease_ms", by decide, rfl⟩, by simp [lit_inj], by simp [lit_inj]⟩
  · exact ⟨⟨"NOW", "now_ms", by decide, rfl⟩, by simp [lit_inj], by simp [lit_inj]⟩
  · exact ⟨⟨"PARTITION", "partition_key", by decide, rfl⟩, by simp [lit_inj], by simp [lit_inj]⟩
  · exact ⟨⟨"RETURN", "return", by decide, rfl⟩, by simp [lit_inj], fun _ => hmode⟩

theorem startOption_knows : Knows limit (startOption rt) fun name value =>
    name = lit "RETURN" → among value ["JOBS_COMPACT", "jobs_compact"] = true := by
  intro name value o o' used w h
  rcases startOption_cases h with ⟨rfl, -⟩ | ⟨rfl, -⟩ | ⟨rfl, -⟩ | ⟨rfl, -⟩ | ⟨rfl, -⟩ |
    ⟨rfl, -⟩ | ⟨rfl, -⟩ | ⟨rfl, -, hmode⟩
  · exact ⟨⟨"TYPE", "type", by decide, rfl⟩, by simp [lit_inj]⟩
  · exact ⟨⟨"INITIAL_STATE", "initial_state", by decide, rfl⟩, by simp [lit_inj]⟩
  · exact ⟨⟨"WORKER", "worker", by decide, rfl⟩, by simp [lit_inj]⟩
  · exact ⟨⟨"LEASE_MS", "lease_ms", by decide, rfl⟩, by simp [lit_inj]⟩
  · exact ⟨⟨"NOW", "now_ms", by decide, rfl⟩, by simp [lit_inj]⟩
  · exact ⟨⟨"PARTITION", "partition_key", by decide, rfl⟩, by simp [lit_inj]⟩
  · exact ⟨⟨"PAYLOAD", "payload", by decide, rfl⟩, by simp [lit_inj]⟩
  · exact ⟨⟨"RETURN", "return", by decide, rfl⟩, fun _ => hmode⟩

theorem putOption_knows : Knows limit (putOption rt) fun name _ => name ≠ lit "PAYLOAD" := by
  intro name value o o' used w h
  rcases putOption_cases h with ⟨rfl, -⟩ | ⟨rfl, -⟩ | ⟨rfl, -⟩ | ⟨rfl, -⟩ | ⟨rfl, -⟩
  · exact ⟨⟨"NOW", "now_ms", by decide, rfl⟩, by simp [lit_inj]⟩
  · exact ⟨⟨"OWNER_FLOW_ID", "owner_flow_id", by decide, rfl⟩, by simp [lit_inj]⟩
  · exact ⟨⟨"NAME", "name", by decide, rfl⟩, by simp [lit_inj]⟩
  · exact ⟨⟨"PARTITION", "partition_key", by decide, rfl⟩, by simp [lit_inj]⟩
  · exact ⟨⟨"RETURN", "return", by decide, rfl⟩, by simp [lit_inj]⟩

theorem lastOf_mem {k : String} {pairs : List (Value × Value)} {v : Value}
    (h : lastOf rt k pairs = some v) : ∃ e ∈ pairs, rt.commandToken e.1 = lit k ∧ e.2 = v := by
  induction pairs with
  | nil => cases h
  | cons x pairs ih =>
    obtain ⟨option, value⟩ := x
    rw [lastOf] at h
    cases hlast : lastOf rt k pairs with
    | some u =>
      rw [hlast] at h
      obtain ⟨e, he, htoken, hv⟩ := ih (hlast.trans h)
      exact ⟨e, List.mem_cons_of_mem _ he, htoken, hv⟩
    | none =>
      rw [hlast, Option.none_or] at h
      split_ifs at h with htoken
      cases h
      exact ⟨_, List.mem_cons_self, htoken, rfl⟩

theorem stepOption_sets {name : Str} {value : Value} {o o' : StepOptions}
    (h : stepOption rt name value o limit used = .ok (o', w)) :
    (o'.fencingToken = if name = lit "FENCING" then rawI64 rt value else o.fencingToken) ∧
    (o'.leaseMs = if name = lit "LEASE_MS" then rawI64 rt value else o.leaseMs) ∧
    (o'.nowMs = if name = lit "NOW" then rawI64 rt value else o.nowMs) ∧
    (o'.partitionKey = if name = lit "PARTITION" then optionalBinaryOf value else o.partitionKey) ∧
    (o'.returnMode =
      if name = lit "RETURN" then some (utf8 (lit "JOBS_COMPACT")) else o.returnMode) := by
  rcases stepOption_cases h with ⟨rfl, rfl⟩ | ⟨rfl, rfl⟩ | ⟨rfl, rfl⟩ | ⟨rfl, rfl⟩ |
    ⟨rfl, rfl, -⟩ <;>
    simp [lit_inj]

theorem stepOptions_last {pairs : List (Value × Value)} {o : StepOptions}
    (h : readOptions rt isUpper (stepOption rt) pairs {} limit used = .ok (o, w)) :
    o.fencingToken = (lastOf rt "FENCING" pairs).bind (rawI64 rt) ∧
    o.leaseMs = (lastOf rt "LEASE_MS" pairs).bind (rawI64 rt) ∧
    o.nowMs = (lastOf rt "NOW" pairs).bind (rawI64 rt) ∧
    o.partitionKey = optionalBinaryOf ((lastOf rt "PARTITION" pairs).getD .none) ∧
    o.returnMode = (lastOf rt "RETURN" pairs).map fun _ => utf8 (lit "JOBS_COMPACT") := by
  refine ⟨?_, ?_, ?_, ?_, ?_⟩
  · rw [← elim_none]
    exact readOptions_field stepOption_knows (g := StepOptions.fencingToken)
      (fun _ _ _ _ _ _ hs => (stepOption_sets hs).1) h
  · rw [← elim_none]
    exact readOptions_field stepOption_knows (g := StepOptions.leaseMs)
      (fun _ _ _ _ _ _ hs => (stepOption_sets hs).2.1) h
  · rw [← elim_none]
    exact readOptions_field stepOption_knows (g := StepOptions.nowMs)
      (fun _ _ _ _ _ _ hs => (stepOption_sets hs).2.2.1) h
  · rw [← elim_optional]
    exact readOptions_field stepOption_knows (g := StepOptions.partitionKey)
      (fun _ _ _ _ _ _ hs => (stepOption_sets hs).2.2.2.1) h
  · rw [readOptions_field stepOption_knows (g := StepOptions.returnMode)
      (fun _ _ _ _ _ _ hs => (stepOption_sets hs).2.2.2.2) h]
    cases lastOf rt "RETURN" pairs <;> rfl

/-- `FLOW.STEP_CONTINUE` is read alike by both. -/
theorem stepContinue_agrees (hrt : KeywordNumbers rt) {command : Command} {r : StepContinue}
    (h : parseStepContinueRaw rt isUpper command limit used = .ok (r, w)) :
    ∃ payload, Builds rt policy rest exec "FLOW.STEP_CONTINUE" command payload ∧
      StepAgrees rt payload r := by
  unfold parseStepContinueRaw at h
  split at h
  · next raw idArg leaseArg fromArg toArg options =>
    split_ifs at h with hlength hname
    · cases h
    · cases h
    · obtain ⟨flowId, u1, hflowId, h⟩ := bind_eq_ok h
      obtain ⟨leaseToken, u2, hleaseToken, h⟩ := bind_eq_ok h
      obtain ⟨fromState, u3, hfromState, h⟩ := bind_eq_ok h
      obtain ⟨toState, u4, htoState, h⟩ := bind_eq_ok h
      obtain ⟨o, u5, hoptions, h⟩ := bind_eq_ok h
      obtain ⟨r1, v1, h1, h⟩ := bind_eq_ok h
      obtain ⟨r2, v2, h2, h⟩ := bind_eq_ok h
      obtain ⟨r3, v3, h3, h⟩ := bind_eq_ok h
      obtain ⟨r4, v4, h4, h⟩ := bind_eq_ok h
      obtain ⟨r5, v5, h5, h⟩ := bind_eq_ok h
      obtain ⟨r6, v6, h6, h⟩ := bind_eq_ok h
      obtain ⟨r7, v7, h7, h⟩ := bind_eq_ok h
      obtain ⟨r8, v8, h8, h⟩ := bind_eq_ok h
      obtain rfl := (pure_eq_ok h).1
      obtain ⟨hnamed, hall⟩ := readOptions_named stepOption_knows hoptions
      have heven : options.length % 2 = 0 := by omega
      have htexts : ∀ e ∈ pairsOf options, rt.commandToken e.1 = lit "RETURN" →
          ∃ s, rt.text e.2 = .ok s ∧ (rt.lowerText s = lit "jobs_compact" ∨
            rt.lowerText s = lit "job_compact") := by
        intro e he hreturn
        obtain ⟨b, hb, hmode | hmode⟩ := (hall e he).2 hreturn
        · obtain ⟨s, hs, hlower⟩ := @text_of_mode e.2 rt _ (by decide +kernel) b hb hmode
          exact ⟨s, hs, .inl (hlower.trans (by decide +kernel))⟩
        · obtain ⟨s, hs, hlower⟩ := @text_of_mode e.2 rt _ (by decide +kernel) b hb hmode
          exact ⟨s, hs, .inr (hlower.trans (by decide +kernel))⟩
      obtain ⟨q, hq⟩ := (readPairs_ok_iff hnamed []).mpr fun e he hreturn =>
        (htexts e he hreturn).imp fun s hs => hs.1
      let fields : Payload := [("id", idArg), ("lease_token", leaseArg), ("from_state", fromArg),
        ("to_state", toArg)]
      have hbuilds := (@builds_iff rt (pairsOf options) fields policy rest exec
        ⟨"FLOW.STEP_CONTINUE", ["id", "lease_token", "from_state", "to_state"], false, []⟩ hrt
        (by rfl) (by decide) ⟨rfl, rfl⟩
        (raw::idArg::leaseArg::fromArg::toArg::options) rfl ⟨rfl, rfl⟩ hnamed
        (flatPairs_pairsOf options heven).symm
        (fun table _ => payloadsTaken_without (fun e he => (hall e he).1) table) _).mpr ⟨q, hq, rfl⟩
      obtain ⟨hfencing, hlease, hnow, hpartition, hreturn⟩ := stepOptions_last hoptions
      have hreturned := @built_option rt _ fields q hnamed hq ("RETURN", "return") (by decide) rfl
      refine ⟨_, hbuilds, ?_, ?_, ?_, ?_, ?_, ?_, ?_, ?_, ?_, ?_⟩
      · rw [textField_positional hnamed hq (by decide) rfl, ← (unreserved_binary hflowId).1,
          require_some h1]
      · rw [textField_positional hnamed hq (by decide) rfl, ← (unreserved_binary hleaseToken).1,
          require_some h2]
      · rw [textField_positional hnamed hq (by decide) rfl, ← (unreserved_binary hfromState).1,
          require_some h3]
      · rw [textField_positional hnamed hq (by decide) rfl, ← (unreserved_binary htoState).1,
          require_some h4]
      · rw [optionalField_option hnamed hq (e := ("PARTITION", "partition_key")) (by decide)
          (by decide) rfl, ← hpartition, require_some h5]
      · rw [intField_option hnamed hq (e := ("FENCING", "fencing_token")) (by decide)
          (by decide) rfl, ← hfencing, require_some h6]
      · rw [intField_option hnamed hq (e := ("LEASE_MS", "lease_ms")) (by decide)
          (by decide) rfl, ← hlease, require_some h7]
      · rw [intField_option hnamed hq (e := ("NOW", "now_ms")) (by decide)
          (by decide) rfl, ← hnow, require_some h8]
      · intro hnone
        rw [hreturn] at hnone
        rw [returnField, hreturned, Option.map_eq_none_iff.mp hnone]
        rfl
      · intro mode hmode
        rw [hreturn] at hmode
        obtain ⟨v, hv, rfl⟩ := Option.map_eq_some_iff.mp hmode
        obtain ⟨e, he, htoken, rfl⟩ := lastOf_mem hv
        obtain ⟨s, hs, hlower⟩ := htexts e he htoken
        refine ⟨rfl, ?_⟩
        have hstored : stored rt "RETURN" e.2 = .str (rt.lowerText s) := by
          rw [stored, if_pos rfl, hs]
          rfl
        rw [returnField, hreturned, hv, Option.map_some, hstored]
        exact hlower.imp (fun h => by rw [h]) fun h => by rw [h]
  · cases h

theorem startOption_sets {name : Str} {value : Value} {o o' : StartOptions}
    (h : startOption rt name value o limit used = .ok (o', w)) :
    (o'.flowType = if name = lit "TYPE" then binaryOf value else o.flowType) ∧
    (o'.initialState = if name = lit "INITIAL_STATE" then binaryOf value else o.initialState) ∧
    (o'.worker = if name = lit "WORKER" then binaryOf value else o.worker) ∧
    (o'.leaseMs = if name = lit "LEASE_MS" then rawI64 rt value else o.leaseMs) ∧
    (o'.nowMs = if name = lit "NOW" then rawI64 rt value else o.nowMs) ∧
    (o'.partitionKey = if name = lit "PARTITION" then optionalBinaryOf value else o.partitionKey) ∧
    (o'.itemPayload = if name = lit "PAYLOAD" then optionalBinaryOf value else o.itemPayload) ∧
    (o'.jobsCompact = if name = lit "RETURN" then true else o.jobsCompact) := by
  rcases startOption_cases h with ⟨rfl, rfl⟩ | ⟨rfl, rfl⟩ | ⟨rfl, rfl⟩ | ⟨rfl, rfl⟩ |
    ⟨rfl, rfl⟩ | ⟨rfl, rfl⟩ | ⟨rfl, rfl⟩ | ⟨rfl, rfl, -⟩ <;>
    simp [lit_inj]

theorem startOptions_last {pairs : List (Value × Value)} {o : StartOptions}
    (h : readOptions rt isUpper (startOption rt) pairs {} limit used = .ok (o, w)) :
    o.flowType = (lastOf rt "TYPE" pairs).bind binaryOf ∧
    o.initialState = (lastOf rt "INITIAL_STATE" pairs).bind binaryOf ∧
    o.worker = (lastOf rt "WORKER" pairs).bind binaryOf ∧
    o.leaseMs = (lastOf rt "LEASE_MS" pairs).bind (rawI64 rt) ∧
    o.nowMs = (lastOf rt "NOW" pairs).bind (rawI64 rt) ∧
    o.partitionKey = optionalBinaryOf ((lastOf rt "PARTITION" pairs).getD .none) ∧
    o.itemPayload = optionalBinaryOf ((lastOf rt "PAYLOAD" pairs).getD .none) ∧
    o.jobsCompact = (lastOf rt "RETURN" pairs).isSome := by
  refine ⟨?_, ?_, ?_, ?_, ?_, ?_, ?_, ?_⟩
  · rw [← elim_none]
    exact readOptions_field startOption_knows (g := StartOptions.flowType)
      (fun _ _ _ _ _ _ hs => (startOption_sets hs).1) h
  · rw [← elim_none]
    exact readOptions_field startOption_knows (g := StartOptions.initialState)
      (fun _ _ _ _ _ _ hs => (startOption_sets hs).2.1) h
  · rw [← elim_none]
    exact readOptions_field startOption_knows (g := StartOptions.worker)
      (fun _ _ _ _ _ _ hs => (startOption_sets hs).2.2.1) h
  · rw [← elim_none]
    exact readOptions_field startOption_knows (g := StartOptions.leaseMs)
      (fun _ _ _ _ _ _ hs => (startOption_sets hs).2.2.2.1) h
  · rw [← elim_none]
    exact readOptions_field startOption_knows (g := StartOptions.nowMs)
      (fun _ _ _ _ _ _ hs => (startOption_sets hs).2.2.2.2.1) h
  · rw [← elim_optional]
    exact readOptions_field startOption_knows (g := StartOptions.partitionKey)
      (fun _ _ _ _ _ _ hs => (startOption_sets hs).2.2.2.2.2.1) h
  · rw [← elim_optional]
    exact readOptions_field startOption_knows (g := StartOptions.itemPayload)
      (fun _ _ _ _ _ _ hs => (startOption_sets hs).2.2.2.2.2.2.1) h
  · rw [readOptions_field startOption_knows (g := StartOptions.jobsCompact)
      (fun _ _ _ _ _ _ hs => (startOption_sets hs).2.2.2.2.2.2.2) h]
    cases lastOf rt "RETURN" pairs <;> rfl

theorem putOption_sets {name : Str} {value : Value} {o o' : PutOptions}
    (h : putOption rt name value o limit used = .ok (o', w)) :
    (o'.nowMs = if name = lit "NOW" then rawI64 rt value else o.nowMs) ∧
    (o'.ownerFlowId = if name = lit "OWNER_FLOW_ID" then binaryOf value else o.ownerFlowId) ∧
    (o'.nameValue = if name = lit "NAME" then binaryOf value else o.nameValue) ∧
    (o'.partitionKey = if name = lit "PARTITION" then optionalBinaryOf value else o.partitionKey) ∧
    (o'.returnMode = if name = lit "RETURN" then value else o.returnMode) := by
  rcases putOption_cases h with ⟨rfl, rfl⟩ | ⟨rfl, rfl⟩ | ⟨rfl, rfl⟩ | ⟨rfl, rfl⟩ | ⟨rfl, rfl⟩ <;>
    simp [lit_inj]

theorem putOptions_last {pairs : List (Value × Value)} {o : PutOptions}
    (h : readOptions rt isUpper (putOption rt) pairs {} limit used = .ok (o, w)) :
    o.nowMs = (lastOf rt "NOW" pairs).bind (rawI64 rt) ∧
    o.ownerFlowId = (lastOf rt "OWNER_FLOW_ID" pairs).bind binaryOf ∧
    o.nameValue = (lastOf rt "NAME" pairs).bind binaryOf ∧
    o.partitionKey = optionalBinaryOf ((lastOf rt "PARTITION" pairs).getD .none) ∧
    o.returnMode = (lastOf rt "RETURN" pairs).getD .none := by
  refine ⟨?_, ?_, ?_, ?_, ?_⟩
  · rw [← elim_none]
    exact readOptions_field putOption_knows (g := PutOptions.nowMs)
      (fun _ _ _ _ _ _ hs => (putOption_sets hs).1) h
  · rw [← elim_none]
    exact readOptions_field putOption_knows (g := PutOptions.ownerFlowId)
      (fun _ _ _ _ _ _ hs => (putOption_sets hs).2.1) h
  · rw [← elim_none]
    exact readOptions_field putOption_knows (g := PutOptions.nameValue)
      (fun _ _ _ _ _ _ hs => (putOption_sets hs).2.2.1) h
  · rw [← elim_optional]
    exact readOptions_field putOption_knows (g := PutOptions.partitionKey)
      (fun _ _ _ _ _ _ hs => (putOption_sets hs).2.2.2.1) h
  · rw [readOptions_field putOption_knows (g := PutOptions.returnMode)
      (fun _ _ _ _ _ _ hs => (putOption_sets hs).2.2.2.2) h]
    cases lastOf rt "RETURN" pairs <;> rfl

/-- No `PAYLOAD` of the options is a flag. -/
def PayloadsAreValues (rt : Runtime) (options : List Value) : Prop :=
  ∀ table, flowOptionPlan rt options = .ok table → PayloadsTaken rt (pairsOf options) table

/-- A payload that spells no option is a value. -/
theorem payloadsAreValues_unspelled {options : List Value}
    (h : ∀ e ∈ pairsOf options, rt.commandToken e.1 = lit "PAYLOAD" → token rt e.2 = none) :
    PayloadsAreValues rt options := by
  rintro table -
  generalize pairsOf options = pairs at h
  induction pairs generalizing table with
  | nil => trivial
  | cons e pairs ih =>
    refine ⟨fun hp => ?_, ih _ fun x hx => h x (List.mem_cons_of_mem _ hx)⟩
    rw [payloadIsFlag, h e List.mem_cons_self hp]
    rfl

/-- `FLOW.START_AND_CLAIM` is read alike by both where no payload is a flag. -/
theorem startAndClaim_agrees (hrt : KeywordNumbers rt) {command : Command} {r : StartAndClaim}
    (h : parseStartAndClaimRaw rt isUpper command limit used = .ok (r, w))
    (hvalues : PayloadsAreValues rt (command.drop 2)) :
    ∃ payload, Builds rt policy rest exec "FLOW.START_AND_CLAIM" command payload ∧
      StartAgrees rt payload r := by
  unfold parseStartAndClaimRaw at h
  split at h
  · next raw idArg options =>
    split_ifs at h with hlength hname
    · cases h
    · cases h
    · obtain ⟨flowId, u1, hflowId, h⟩ := bind_eq_ok h
      obtain ⟨o, u2, hoptions, h⟩ := bind_eq_ok h
      obtain ⟨r1, v1, h1, h⟩ := bind_eq_ok h
      obtain ⟨r2, v2, h2, h⟩ := bind_eq_ok h
      obtain ⟨r3, v3, h3, h⟩ := bind_eq_ok h
      obtain ⟨r4, v4, h4, h⟩ := bind_eq_ok h
      obtain ⟨r5, v5, h5, h⟩ := bind_eq_ok h
      obtain ⟨r6, v6, h6, h⟩ := bind_eq_ok h
      obtain ⟨r7, v7, h7, h⟩ := bind_eq_ok h
      obtain ⟨r8, v8, h8, h⟩ := bind_eq_ok h
      obtain rfl := (pure_eq_ok h).1
      obtain ⟨hnamed, hall⟩ := readOptions_named startOption_knows hoptions
      have heven : options.length % 2 = 0 := by omega
      have hflat := flatPairs_pairsOf options heven
      have hmodes : ∀ e ∈ pairsOf options, rt.commandToken e.1 = lit "RETURN" →
          ∃ s, rt.text e.2 = .ok s ∧ rt.lowerText s = lit "jobs_compact" := by
        intro e he hreturn
        have hmode := hall e he hreturn
        cases hv : e.2 with
        | str s =>
          rw [hv] at hmode
          simp only [among, List.any_cons, List.any_nil, Bool.or_false, Bool.or_eq_true,
            decide_eq_true_eq] at hmode
          refine ⟨s, rfl, ?_⟩
          rcases hmode with rfl | rfl
          · exact lowerText_lit rt (by decide +kernel) (by decide +kernel)
          · exact lowerText_lit rt (by decide +kernel) (by decide +kernel)
        | _ =>
          rw [hv] at hmode
          cases hmode
      obtain ⟨q, hq⟩ := (readPairs_ok_iff hnamed []).mpr fun e he hreturn =>
        (hmodes e he hreturn).imp fun s hs => hs.1
      have hbuilds := (@builds_iff rt (pairsOf options) [("id", idArg)] policy rest exec
        ⟨"FLOW.START_AND_CLAIM", ["id"], false, []⟩ hrt (by rfl) (by decide) ⟨rfl, rfl⟩
        (raw::idArg::options) rfl ⟨rfl, rfl⟩ hnamed hflat.symm
        (fun table ht => hvalues table (hflat ▸ ht)) _).mpr ⟨q, hq, rfl⟩
      obtain ⟨htype, hstate, hworker, hlease, hnow, hpartition, hpayload, hreturn⟩ :=
        startOptions_last hoptions
      have hreturned := @built_option rt _ [("id", idArg)] q hnamed hq ("RETURN", "return")
        (by decide) rfl
      refine ⟨_, hbuilds, ?_, ?_, ?_, ?_, ?_, ?_, ?_, ?_, ?_⟩
      · rw [textField_positional hnamed hq (by decide) rfl, ← (unreserved_binary hflowId).1,
          require_some h1]
      · rw [textField_option hnamed hq (e := ("TYPE", "type")) (by decide) (by decide) rfl,
          ← htype, require_some h2]
      · rw [textField_option hnamed hq (e := ("INITIAL_STATE", "initial_state")) (by decide)
          (by decide) rfl, ← hstate, require_some h3]
      · rw [textField_option hnamed hq (e := ("WORKER", "worker")) (by decide) (by decide) rfl,
          ← hworker, require_some h4]
      · rw [optionalField_option hnamed hq (e := ("PARTITION", "partition_key")) (by decide)
          (by decide) rfl, ← hpartition, require_some h5]
      · rw [optionalField_option hnamed hq (e := ("PAYLOAD", "payload")) (by decide)
          (by decide) rfl, ← hpayload, require_some h6]
      · rw [intField_option hnamed hq (e := ("LEASE_MS", "lease_ms")) (by decide)
          (by decide) rfl, ← hlease, require_some h7]
      · rw [intField_option hnamed hq (e := ("NOW", "now_ms")) (by decide)
          (by decide) rfl, ← hnow, require_some h8]
      · rw [returnField, hreturned, hreturn]
        cases hlast : lastOf rt "RETURN" (pairsOf options) with
        | none => rfl
        | some v =>
          obtain ⟨e, he, htoken, rfl⟩ := lastOf_mem hlast
          obtain ⟨s, hs, hlower⟩ := hmodes e he htoken
          rw [Option.map_some, stored, if_pos rfl, hs]
          change some (Value.str (rt.lowerText s)) = _
          rw [hlower]
          rfl
  · cases h

/-- What the options of a value say is what the raw parser keeps of them. -/
structure PutReadable (rt : Runtime) (options : List Value) : Prop where
  modes : ∀ e ∈ pairsOf options, rt.commandToken e.1 = lit "RETURN" → ∃ s, rt.text e.2 = .ok s
  mode : ∀ v, lastOf rt "RETURN" (pairsOf options) = some v → v.isNone = false
  owner : ∀ v, lastOf rt "OWNER_FLOW_ID" (pairsOf options) = some v → (optionalBinaryOf v).isSome
  name : ∀ v, lastOf rt "NAME" (pairsOf options) = some v → (optionalBinaryOf v).isSome

theorem optional_readable (o : Option Value) :
    (∀ v, o = some v → (optionalBinaryOf v).isSome) ↔
      optionalBinaryOf (o.getD .none) = some (o.bind binaryOf) := by
  cases o with
  | none => exact ⟨fun _ => rfl, fun _ v h => (nomatch h)⟩
  | some v =>
    rw [Option.getD_some, Option.bind_some]
    cases v with
    | none => exact ⟨fun _ => rfl, fun _ u hu => by cases hu; rfl⟩
    | _ =>
      simp only [Option.some.injEq, forall_eq', optionalBinaryOf]
      cases binaryOf _ <;> simp

/-- The modes of a value without and with a return mode. -/
theorem putMode_cases {plain ok mode : ℕ} {v : Value}
    (h : putMode plain ok v limit used = .ok (mode, w)) :
    (v = .none ∧ mode = plain) ∨ (v.isNone = false ∧ mode = ok ∧
      ∃ b, binaryOf v = some b ∧ upperBytes b = utf8 (lit "OK_ON_SUCCESS")) := by
  unfold putMode at h
  split_ifs at h with hnone
  · refine .inl ⟨?_, (pure_eq_ok h).1.symm⟩
    cases v with
    | none => rfl
    | _ => cases hnone
  · obtain ⟨succeeds, u, hsucceeds, h⟩ := bind_eq_ok h
    obtain ⟨o, u', ho, hb⟩ := bind_eq_ok hsucceeds
    have hany := (pure_eq_ok hb).1
    rw [(unreserved_binary ho).1] at hany
    cases succeeds with
    | false => cases h
    | true =>
      obtain ⟨b, hb, hupper⟩ := (Option.any_eq_true _ _).mp hany
      exact .inr ⟨Bool.eq_false_iff.mpr hnone, (pure_eq_ok h).1.symm, b, hb, by simpa using hupper⟩

/-- What an accepted value has read. -/
structure PutRead (rt : Runtime) (isUpper : Str → Bool) (limit : Option ℕ) (valueArg : Value)
    (options : List Value) (r : ValuePut) (o : PutOptions) : Prop where
  even : options.length % 2 = 0
  looped : ∃ used w, readOptions rt isUpper (putOption rt) (pairsOf options) {} limit used =
    .ok (o, w)
  value : binaryOf valueArg = some r.value
  nowMs : o.nowMs = some r.nowMs
  owner : o.ownerFlowId = r.owned.map OwnedValue.ownerFlowId
  name : o.nameValue = r.owned.map OwnedValue.name
  partitionKey : o.partitionKey = some (r.owned.bind OwnedValue.partitionKey)
  mode : ∃ used w, putMode (if r.owned.isSome then 8 else 7) (if r.owned.isSome then 14 else 15)
    o.returnMode limit used = .ok (r.mode, w)

theorem parseValuePut_read {command : Command} {r : ValuePut}
    (h : parseValuePutRaw rt isUpper command limit used = .ok (r, w)) :
    ∃ raw valueArg options o, command = raw::valueArg::options ∧
      PutRead rt isUpper limit valueArg options r o := by
  unfold parseValuePutRaw at h
  split at h
  · next raw valueArg options =>
    split_ifs at h with hlength hname
    · cases h
    · cases h
    · obtain ⟨value, u1, hvalue, h⟩ := bind_eq_ok h
      obtain ⟨o, u2, hoptions, h⟩ := bind_eq_ok h
      obtain ⟨v, u3, hv, h⟩ := bind_eq_ok h
      obtain ⟨nowMs, u4, hnow, h⟩ := bind_eq_ok h
      obtain ⟨key, u5, hkey, h⟩ := bind_eq_ok h
      have hread := (unreserved_binary hvalue).1.symm.trans (require_some hv)
      have heven : options.length % 2 = 0 := by omega
      split_ifs at h with howned
      · obtain ⟨mode, u6, hmode, h⟩ := bind_eq_ok h
        obtain rfl := (pure_eq_ok h).1
        have hkey' : key = none := Option.isNone_iff_eq_none.mp howned.2.2
        exact ⟨raw, valueArg, options, o, rfl, heven, ⟨_, _, hoptions⟩, hread, require_some hnow,
          Option.isNone_iff_eq_none.mp howned.1, Option.isNone_iff_eq_none.mp howned.2.1,
          (require_some hkey).trans (congrArg some hkey'), ⟨_, _, hmode⟩⟩
      · obtain ⟨owner, u6, howner, h⟩ := bind_eq_ok h
        obtain ⟨name, u7, hnamed, h⟩ := bind_eq_ok h
        obtain ⟨mode, u8, hmode, h⟩ := bind_eq_ok h
        obtain rfl := (pure_eq_ok h).1
        exact ⟨raw, valueArg, options, o, rfl, heven, ⟨_, _, hoptions⟩, hread, require_some hnow,
          require_some howner, require_some hnamed, require_some hkey, ⟨_, _, hmode⟩⟩
  · cases h

/-- `FLOW.VALUE.PUT` is read alike by both exactly when its options are readable. -/
theorem valuePut_agrees_iff (hrt : KeywordNumbers rt) {command : Command} {r : ValuePut}
    (h : parseValuePutRaw rt isUpper command limit used = .ok (r, w)) :
    (∃ payload, Builds rt policy rest exec "FLOW.VALUE.PUT" command payload ∧
      PutAgrees rt payload r) ↔ PutReadable rt (command.drop 2) := by
  obtain ⟨raw, valueArg, options, o, rfl, hread⟩ := parseValuePut_read h
  obtain ⟨u1, w1, hoptions⟩ := hread.looped
  obtain ⟨u2, w2, hmode⟩ := hread.mode
  obtain ⟨hnamed, hall⟩ := readOptions_named putOption_knows hoptions
  obtain ⟨hnow, howner, hname, hpartition, hreturn⟩ := putOptions_last hoptions
  have hbuilds := @builds_iff rt (pairsOf options) [("value", valueArg)] policy rest exec
    ⟨"FLOW.VALUE.PUT", ["value"], false, []⟩ hrt (by rfl) (by decide) ⟨rfl, rfl⟩
    (raw::valueArg::options) rfl ⟨rfl, rfl⟩ hnamed (flatPairs_pairsOf options hread.even).symm
    (fun table _ => payloadsTaken_without hall table)
  have hownerField (q : Payload) (hq : readPairs rt [] (pairsOf options) = .ok q) :
      optionalField (Dict.update [("value", valueArg)] q) "owner_flow_id" =
        optionalBinaryOf ((lastOf rt "OWNER_FLOW_ID" (pairsOf options)).getD .none) :=
    optionalField_option hnamed hq (e := ("OWNER_FLOW_ID", "owner_flow_id")) (by decide)
      (by decide) rfl
  have hnameField (q : Payload) (hq : readPairs rt [] (pairsOf options) = .ok q) :
      optionalField (Dict.update [("value", valueArg)] q) "name" =
        optionalBinaryOf ((lastOf rt "NAME" (pairsOf options)).getD .none) :=
    optionalField_option hnamed hq (e := ("NAME", "name")) (by decide) (by decide) rfl
  have hreturnField (q : Payload) (hq : readPairs rt [] (pairsOf options) = .ok q) :
      returnField (Dict.update [("value", valueArg)] q) =
        (lastOf rt "RETURN" (pairsOf options)).map (stored rt "RETURN") :=
    @built_option rt _ [("value", valueArg)] q hnamed hq ("RETURN", "return") (by decide) rfl
  change _ ↔ PutReadable rt options
  constructor
  · rintro ⟨payload, hbuilt, hagrees⟩
    obtain ⟨q, hq, rfl⟩ := (hbuilds payload).mp hbuilt
    refine ⟨(readPairs_ok_iff hnamed []).mp ⟨q, hq⟩, fun v hv => ?_, ?_, ?_⟩
    · have hreturns := hagrees.returns
      rw [hreturnField q hq, hv] at hreturns
      rw [hreturn, hv, Option.getD_some] at hmode
      rcases putMode_cases hmode with ⟨-, hplain⟩ | ⟨hsome, -⟩
      · rw [hplain, if_neg (by split_ifs <;> decide)] at hreturns
        cases hreturns
      · exact hsome
    · refine (optional_readable _).mpr ?_
      rw [← hownerField q hq, hagrees.ownerFlowId, ← hread.owner, howner]
    · refine (optional_readable _).mpr ?_
      rw [← hnameField q hq, hagrees.name, ← hread.name, hname]
  · intro hreadable
    obtain ⟨q, hq⟩ := (readPairs_ok_iff hnamed []).mpr hreadable.modes
    refine ⟨_, (hbuilds _).mpr ⟨q, hq, rfl⟩, ?_, ?_, ?_, ?_, ?_, ?_, ?_⟩
    · rw [textField_positional hnamed hq (by decide) rfl, hread.value]
    · rw [hownerField q hq, (optional_readable _).mp hreadable.owner, ← howner, hread.owner]
    · rw [hnameField q hq, (optional_readable _).mp hreadable.name, ← hname, hread.name]
    · rw [optionalField_option hnamed hq (e := ("PARTITION", "partition_key")) (by decide)
        (by decide) rfl, ← hpartition, hread.partitionKey]
    · rw [intField_option hnamed hq (e := ("NOW", "now_ms")) (by decide) (by decide) rfl,
        ← hnow, hread.nowMs]
    · rcases putMode_cases hmode with ⟨-, heq⟩ | ⟨-, heq, -⟩ <;> rw [heq] <;>
        cases r.owned.isSome <;> decide
    · rw [hreturnField q hq]
      cases hlast : lastOf rt "RETURN" (pairsOf options) with
      | none =>
        rw [hreturn, hlast] at hmode
        rcases putMode_cases hmode with ⟨-, heq⟩ | ⟨hsome, -⟩
        · rw [heq, if_neg (by split_ifs <;> decide)]
          rfl
        · cases hsome
      | some v =>
        rw [hreturn, hlast, Option.getD_some] at hmode
        have hv := hreadable.mode v hlast
        rcases putMode_cases hmode with ⟨rfl, -⟩ | ⟨-, heq, b, hb, hupper⟩
        · cases hv
        · obtain ⟨s, hs, hlower⟩ := @text_of_mode v rt _ (by decide +kernel) b hb hupper
          have hstored : stored rt "RETURN" v = .str (lit "ok_on_success") := by
            rw [stored, if_pos rfl, hs]
            change Value.str (rt.lowerText s) = _
            rw [hlower]
            exact congrArg Value.str (by decide +kernel)
          rw [Option.map_some, hstored, heq, if_pos (by split_ifs <;> decide)]

/-- What a raw parser accepts, the generic builder accepts with the same content: a step always,
a start where no payload of it is a flag, and a value exactly where its options are readable. -/
theorem raw_flow_parsers_agree (rt : Runtime) (hrt : KeywordNumbers rt) (isUpper : Str → Bool)
    (policy : CompactEncodingPolicy) (rest exec : String → List Value → Except Err ProtocolCommand)
    (command : Command) (limit : Option ℕ) (used w : ℕ) :
    (∀ r, parseStepContinueRaw rt isUpper command limit used = .ok (r, w) →
      ∃ payload, Builds rt policy rest exec "FLOW.STEP_CONTINUE" command payload ∧
        StepAgrees rt payload r) ∧
    (∀ r, parseStartAndClaimRaw rt isUpper command limit used = .ok (r, w) →
      PayloadsAreValues rt (command.drop 2) →
      ∃ payload, Builds rt policy rest exec "FLOW.START_AND_CLAIM" command payload ∧
        StartAgrees rt payload r) ∧
    (∀ r, parseValuePutRaw rt isUpper command limit used = .ok (r, w) →
      ((∃ payload, Builds rt policy rest exec "FLOW.VALUE.PUT" command payload ∧
        PutAgrees rt payload r) ↔ PutReadable rt (command.drop 2))) :=
  ⟨fun _ h => stepContinue_agrees hrt h, fun _ h hvalues => startAndClaim_agrees hrt h hvalues,
    fun _ h => valuePut_agrees_iff hrt h⟩

end Results

section Samples

def sampleStart (payload : Value) : Command :=
  [.str (lit "FLOW.START_AND_CLAIM"), .str (lit "f"), .str (lit "TYPE"), .str (lit "t"),
    .str (lit "INITIAL_STATE"), .str (lit "s"), .str (lit "WORKER"), .str (lit "w"),
    .str (lit "LEASE_MS"), .int 1000, .str (lit "NOW"), .int 5, .str (lit "PAYLOAD"), payload]

def sampleStep : Command :=
  [.str (lit "FLOW.STEP_CONTINUE"), .str (lit "f"), .str (lit "l"), .str (lit "a"),
    .str (lit "b"), .str (lit "FENCING"), .int 1, .str (lit "LEASE_MS"), .int 1000,
    .str (lit "NOW"), .int 5, .str (lit "NOW"), .int 6, .str (lit "PARTITION"),
    .str (lit "PAYLOAD")]

def samplePut (owner : Value) : Command :=
  [.str (lit "FLOW.VALUE.PUT"), .str (lit "v"), .str (lit "NOW"), .int 5,
    .str (lit "OWNER_FLOW_ID"), owner, .str (lit "RETURN"), .str (lit "ok_on_success")]

/-- Upper case text of ASCII. -/
def isUpperAscii (s : Str) : Bool := s.map upperAscii = s

def unbuilt : String → List Value → Except Err ProtocolCommand := fun _ _ => .error .valueError

theorem keywordNumbers_ascii : KeywordNumbers Runtime.ascii := by
  intro v k e hk hv he
  cases he
  exact .inr rfl

theorem accepted {ε α β : Type} {x : Except ε (α × ℕ)} (g : α → β) {b : β}
    (h : x.toOption.map (fun p => g p.1) = some b) : ∃ r w, x = .ok (r, w) ∧ g r = b := by
  cases x with
  | error e => cases h
  | ok p => exact ⟨p.1, p.2, rfl, Option.some.inj h⟩

theorem payloadsAreValues_sample :
    PayloadsAreValues Runtime.ascii ((sampleStart (.str (lit "p"))).drop 2) :=
  payloadsAreValues_unspelled (by decide +kernel)

theorem putReadable_sample : PutReadable Runtime.ascii ((samplePut .none).drop 2) := by
  have hlast : lastOf Runtime.ascii "RETURN" (pairsOf ((samplePut .none).drop 2)) =
      some (.str (lit "ok_on_success")) := by
    decide +kernel
  have howner : lastOf Runtime.ascii "OWNER_FLOW_ID" (pairsOf ((samplePut .none).drop 2)) =
      some .none := by
    decide +kernel
  have hname : lastOf Runtime.ascii "NAME" (pairsOf ((samplePut .none).drop 2)) = none := by
    decide +kernel
  have hmodes : (pairsOf ((samplePut .none).drop 2)).all fun e =>
      Runtime.ascii.commandToken e.1 ≠ lit "RETURN" ∨ (Runtime.ascii.text e.2).isOk := by
    decide +kernel
  refine ⟨fun e he hreturn => ?_, fun v hv => ?_, fun v hv => ?_, fun v hv => ?_⟩
  · have htext := (of_decide_eq_true (List.all_eq_true.mp hmodes e he)).resolve_left
      fun hne => hne hreturn
    cases hs : Runtime.ascii.text e.2 with
    | ok s => exact ⟨s, rfl⟩
    | error x =>
      rw [hs] at htext
      cases htext
  · cases hlast.symm.trans hv
    rfl
  · cases howner.symm.trans hv
    rfl
  · cases hname.symm.trans hv

/-- A step whose partition spells an option, a start with a payload and an owned value. -/
theorem raw_flow_parsers_agree_samples :
    (∃ r w payload,
      parseStepContinueRaw Runtime.ascii isUpperAscii sampleStep none 0 = .ok (r, w) ∧
      Builds Runtime.ascii unboundedPolicy unbuilt unbuilt "FLOW.STEP_CONTINUE" sampleStep
        payload ∧ StepAgrees Runtime.ascii payload r) ∧
    (∃ r w payload, parseStartAndClaimRaw Runtime.ascii isUpperAscii
        (sampleStart (.str (lit "p"))) none 0 = .ok (r, w) ∧
      Builds Runtime.ascii unboundedPolicy unbuilt unbuilt "FLOW.START_AND_CLAIM"
        (sampleStart (.str (lit "p"))) payload ∧ StartAgrees Runtime.ascii payload r) ∧
    ∃ r w payload, parseValuePutRaw Runtime.ascii isUpperAscii
        (samplePut .none) none 0 = .ok (r, w) ∧
      Builds Runtime.ascii unboundedPolicy unbuilt unbuilt "FLOW.VALUE.PUT" (samplePut .none)
        payload ∧ PutAgrees Runtime.ascii payload r := by
  refine ⟨?_, ?_, ?_⟩
  · obtain ⟨r, w, h, -⟩ := accepted (x := parseStepContinueRaw Runtime.ascii isUpperAscii
      sampleStep none 0) StepContinue.nowMs (b := 6) (by decide +kernel)
    exact ⟨r, w, _, h, ((raw_flow_parsers_agree Runtime.ascii keywordNumbers_ascii isUpperAscii
      unboundedPolicy unbuilt unbuilt sampleStep none 0 w).1 r h).choose_spec⟩
  · obtain ⟨r, w, h, -⟩ := accepted (x := parseStartAndClaimRaw Runtime.ascii isUpperAscii
      (sampleStart (.str (lit "p"))) none 0) StartAndClaim.nowMs (b := 5) (by decide +kernel)
    exact ⟨r, w, _, h, ((raw_flow_parsers_agree Runtime.ascii keywordNumbers_ascii isUpperAscii
      unboundedPolicy unbuilt unbuilt _ none 0 w).2.1 r h payloadsAreValues_sample).choose_spec⟩
  · obtain ⟨r, w, h, -⟩ := accepted (x := parseValuePutRaw Runtime.ascii isUpperAscii
      (samplePut .none) none 0) ValuePut.mode (b := 15) (by decide +kernel)
    exact ⟨r, w, _, h, (((raw_flow_parsers_agree Runtime.ascii keywordNumbers_ascii isUpperAscii
      unboundedPolicy unbuilt unbuilt _ none 0 w).2.2 r h).mpr putReadable_sample).choose_spec⟩

/-- A payload that spells an option is content to the raw parser, and the generic builder takes
the option for one and has no name left for it; an owner that is no text is dropped. -/
theorem raw_flow_parsers_differ :
    (∃ r w, parseStartAndClaimRaw Runtime.ascii isUpperAscii (sampleStart (.str (lit "NOW")))
        none 0 = .ok (r, w) ∧ r.itemPayload = some (utf8 (lit "NOW")) ∧
      ¬∃ payload, Builds Runtime.ascii unboundedPolicy unbuilt unbuilt "FLOW.START_AND_CLAIM"
        (sampleStart (.str (lit "NOW"))) payload) ∧
    ∃ r w, parseValuePutRaw Runtime.ascii isUpperAscii (samplePut (.int 7)) none 0 = .ok (r, w) ∧
      ¬∃ payload, Builds Runtime.ascii unboundedPolicy unbuilt unbuilt "FLOW.VALUE.PUT"
        (samplePut (.int 7)) payload ∧ PutAgrees Runtime.ascii payload r := by
  constructor
  · obtain ⟨r, w, h, hpayload⟩ := accepted (x := parseStartAndClaimRaw Runtime.ascii isUpperAscii
      (sampleStart (.str (lit "NOW"))) none 0) StartAndClaim.itemPayload
      (b := some (utf8 (lit "NOW"))) (by decide +kernel)
    refine ⟨r, w, h, hpayload, fun ⟨payload, hbuilt⟩ => ?_⟩
    have hfails : (buildFlowProtocolCommand Runtime.ascii unboundedPolicy unbuilt unbuilt
        "FLOW.START_AND_CLAIM" (sampleStart (.str (lit "NOW"))).tail).isOk = false := by
      decide +kernel
    rw [Builds] at hbuilt
    rw [hbuilt] at hfails
    cases hfails
  · obtain ⟨r, w, h, -⟩ := accepted (x := parseValuePutRaw Runtime.ascii isUpperAscii
      (samplePut (.int 7)) none 0) ValuePut.mode (b := 15) (by decide +kernel)
    refine ⟨r, w, h, fun hagrees => ?_⟩
    have hreadable := (valuePut_agrees_iff keywordNumbers_ascii h).mp hagrees
    have howner : lastOf Runtime.ascii "OWNER_FLOW_ID" (pairsOf ((samplePut (.int 7)).drop 2)) =
        some (.int 7) := by
      decide +kernel
    exact absurd (hreadable.owner _ howner) (by decide)

end Samples

end FerricStore.RawFlowParsers
