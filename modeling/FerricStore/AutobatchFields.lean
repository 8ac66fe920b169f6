import FerricStore.Autobatch

/-!
# The fields of batched and direct operations

A direct command writes the fields of its operation as options; a command for many flows
writes some of them in the items and the others once. Operations of one key that are encoded
alike share the latter, so each of them is carried as its direct command would.
-/

set_option autoImplicit false

namespace FerricStore.Autobatch

open Text BatchFingerprints QueuedArguments FlowOptions MutationArguments ManyArguments
  CreateManyArguments

section Keys

theorem heldArg_inj {a b : Option ℕ}
    (h : same (queuedBatchFingerprint (heldArg a)) (queuedBatchFingerprint (heldArg b)) = true) :
    a = b := by
  have hplain : (heldArg a).plain = true := by
    cases a <;> simp [heldArg, Arg.plain]
  have hab := queued_inj _ _ hplain h
  cases a <;> cases b <;> simp_all [heldArg]

theorem isNone_of_same {a b : Arg}
    (h : same (queuedBatchFingerprint a) (queuedBatchFingerprint b) = true) :
    a.isNone = b.isNone := by
  cases a <;> cases b <;> simp [queuedBatchFingerprint, same, Arg.isNone] at h ⊢

theorem encodedArg_congr {encode : Arg → Bytes} {a b : Arg}
    (h : same (queuedBatchFingerprint a) (queuedBatchFingerprint b) = true)
    (halike : encode a = encode b) : encodedArg encode a = encodedArg encode b := by
  simp [encodedArg, isNone_of_same h, halike]

theorem named_of_same {n n' : NamedArgs}
    (h : sameKey (batchNamedKey n) (batchNamedKey n') = true) : n = n' := by
  simp only [batchNamedKey, sameKey, batchKeyValue, KeyPart.same, Bool.and_eq_true] at h
  obtain ⟨hvalues, hrefs, hdrop, hoverride, -⟩ := h
  have hvalues := heldArg_inj hvalues
  have hrefs := heldArg_inj hrefs
  have hdrop := heldArg_inj hdrop
  have hoverride := heldArg_inj hoverride
  cases n
  cases n'
  simp_all

end Keys

section Fields

/-- What a command says about one flow. -/
structure Sent where
  id : Str
  states : List Str
  fields : List Group

/-- Everything that one command says about a flow, another says too. -/
structure Sent.Within (d b : Sent) : Prop where
  id : d.id = b.id
  states : d.states = b.states
  fields : d.fields ⊆ b.fields

variable (rt : Runtime) (heap : Heap) (encode : Arg → Bytes) (clock : ℤ)

def leaseGroup (lease : Bytes) : Group := fixedGroup "LEASE_TOKEN" "lease_token" (.bytes lease)

def fencingGroup (fencing : ℤ) : Group := fixedGroup "FENCING" "fencing_token" (.int fencing)

def keyGroup (k : Option PartitionKey) : List Group :=
  givenGroup "PARTITION" "partition_key" (k.map PartitionKey.value)

def Verb.states (m : Mutation) : Verb → List Str
  | .transition => [m.fromState, m.toState]
  | _ => []

def cancelGroups (c : Cancel) : List Group :=
  [fencingGroup c.fencingToken, fixedGroup "NOW" "now_ms" (.int (c.nowMs.getD clock))]++
    (givenGroup "LEASE_TOKEN" "lease_token" (c.leaseToken.map Value.bytes)++
      (keyGroup c.partitionKey++
        (encodedGroup wireCodec "REASON" "reason" (encodedArg encode c.reason)++
          (intGroup "TTL" "ttl_ms" c.ttlMs++
            (metaGroups (namedOptions heap encode c.named c.stateMeta)++
              valueGroups wireCodec (namedOptions heap encode c.named c.stateMeta))))))

def directCreateGroups (c : Create) : List Group :=
  [fixedGroup "TYPE" "type" (.str c.type), .field "STATE" (.str c.state) "state" (.str c.state),
      fixedGroup "NOW" "now_ms" (.int (c.nowMs.getD clock))]++
    (keyGroup c.partitionKey++
      (encodedGroup wireCodec "PAYLOAD" "payload" (encodedArg encode c.payload)++
        (givenGroup "PARENT_FLOW_ID" "parent_flow_id" (c.parentFlowId.map Value.str)++
          (givenGroup "ROOT_FLOW_ID" "root_flow_id" (c.rootFlowId.map Value.str)++
            (givenGroup "CORRELATION_ID" "correlation_id" (c.correlationId.map Value.str)++
              (intGroup "RUN_AT" "run_at_ms" (some (c.runAtMs.getD (c.nowMs.getD clock)))++
                (intGroup "PRIORITY" "priority" c.priority++
                  (boolGroup "IDEMPOTENT" "idempotent" c.idempotent++
                    (givenGroup "MAX_ACTIVE_MS" "max_active_ms" (meantLimit rt c.maxActiveMs)++
                      [Group.named "STATE_META" "state_meta" (c.stateMeta.getD Named.empty).val,
                        .named "VALUE" "values"
                          (encoded wireCodec (heldValues heap encode c.values)),
                        .named "VALUE_REF" "value_refs"
                          (references (heldRefs heap c.valueRefs))])))))))))

/-- The fields of the direct command. -/
def directFields : Operation → Sent
  | .mutate verb m => ⟨m.id, verb.states m, leaseGroup m.leaseToken::
      groups wireCodec clock (directCall heap encode m) verb.kind⟩
  | .cancel c => ⟨c.id, [], cancelGroups heap encode clock c⟩
  | .create c => ⟨c.id, [], directCreateGroups rt heap encode clock c⟩

/-- What the direct call sends, unless it raises. -/
def directSent (op : Operation) : Except Err Sent :=
  (directArgs rt heap encode clock op).map fun _ => directFields rt heap encode clock op

def claimedRow (i : ClaimedFlow) : List Group :=
  leaseGroup i.leaseToken::fencingGroup i.fencingToken::keyGroup i.partitionKey

def fencedRow (includeLease : Bool) (i : FencedItem) : List Group :=
  fencingGroup i.fencingToken::(keyGroup i.partitionKey++
    if includeLease then (i.leaseToken.map leaseGroup).toList else [])

/-- The fields that a command for many flows has for each of them. -/
def manySent (c : ManyCall) : ManyKind → List Sent
  | .transition => c.fenced.map fun i => ⟨i.id, [c.fromState, c.toState],
      fencedRow true i++manyGroups wireCodec clock c .transition⟩
  | .cancel => c.fenced.map fun i => ⟨i.id, [],
      fencedRow false i++manyGroups wireCodec clock c .cancel⟩
  | kind => c.claimed.map fun i => ⟨i.id, [], claimedRow i++manyGroups wireCodec clock c kind⟩

def createRow (c : CreateManyCall) (i : CreateItem) : List Group :=
  fixedGroup "PAYLOAD" "payload" (.bytes (wireCodec i.payload))::
    (keyGroup (i.partitionKey.or c.partitionKey)++
      [Group.named "VALUE" "values" (encoded wireCodec (mergeNamedMap c.values i.values)),
        .named "VALUE_REF" "value_refs" (references (mergeNamedMap c.valueRefs i.valueRefs))])

def createSent (c : CreateManyCall) : List Sent :=
  c.items.map fun i => ⟨i.id, [], createRow c i++settingGroups rt clock c⟩

/-- What the command of a group says about each flow of it. -/
def groupFields : List Operation → List Sent
  | [] => []
  | .mutate verb m::ops => manySent clock (manyCall heap encode (.mutate verb m::ops) m) verb.many
  | .cancel c::ops => manySent clock (cancelManyCall heap encode (.cancel c::ops) c) .cancel
  | .create c::ops => createSent rt clock (createManyCall rt heap encode (.create c::ops) c)

def groupSent (agrees : Matcher) (ops : List Operation) : Except Err (List Sent) :=
  (groupArgs rt heap encode clock agrees ops).map fun _ => groupFields rt heap encode clock ops

end Fields

section Written

variable {rt : Runtime} {heap : Heap} {encode : Arg → Bytes} {clock : ℤ}

/-- The fields of a direct cancel are its arguments after the id. -/
theorem cancelCommandArgs_written {c : Cancel} {args : List Value}
    (h : cancelCommandArgs heap encode clock c = .ok args) :
    args.drop 2 = written (cancelGroups heap encode clock c) := by
  unfold cancelCommandArgs at h
  split_ifs at h
  cases h
  simp only [cancelGroups, fencingGroup, keyGroup, List.cons_append, List.nil_append,
    written_fixed, written_append, (written_given ..).1, (written_encoded ..).1, written_meta,
    written_values, intGroup]
  rfl

/-- The fields of a direct create are its arguments after the id. -/
theorem createCommandArgs_written {c : Create} {args : List Value}
    (h : createCommandArgs rt heap encode clock c = .ok args) :
    args.drop 2 = written (directCreateGroups rt heap encode clock c) := by
  obtain ⟨priority, hpriority, h⟩ := except_bind_eq_ok h
  obtain ⟨limit, hlimit, h⟩ := except_bind_eq_ok h
  cases h
  rw [appendPriority_ok hpriority]
  simp only [directCreateGroups, keyGroup, List.cons_append, List.nil_append, written_cons,
    written_nil, written_append, (written_given ..).1, (written_encoded ..).1, written_bool,
    flat_named, intGroup, normalized_limit hlimit, List.append_nil]
  rfl

end Written

section Carried

variable {rt : Runtime} {heap : Heap} {encode : Arg → Bytes} {clock : ℤ}

/-- Arguments of one key that the codec does not tell apart. -/
def Alike (encode : Arg → Bytes) : Operation → Operation → Prop
  | .mutate .complete m, .mutate _ m' =>
    encode m.result = encode m'.result ∧ encode m.payload = encode m'.payload
  | .mutate .transition m, .mutate _ m' => encode m.payload = encode m'.payload
  | .mutate _ m, .mutate _ m' =>
    encode m.error = encode m'.error ∧ encode m.payload = encode m'.payload
  | .cancel c, .cancel c' => encode c.reason = encode c'.reason
  | _, _ => True

/-- A command for many flows has a place for every field of the operation. -/
def Expressible : Operation → Prop
  | .mutate .transition m => m.runAtMs.isSome
  | .cancel c => c.leaseToken = none
  | _ => True

/-- An operation of the key of a mutation is of the same kind. -/
theorem kind_of_key {verb : Verb} {m : Mutation} {op : Operation}
    (h : sameKey (mutationKey m verb) (key rt op) = true) : ∃ m', op = .mutate verb m' := by
  cases op with
  | mutate verb' m' =>
    refine ⟨m', ?_⟩
    cases verb <;> cases verb' <;> first
      | rfl
      | simp [mutationKey, key, sameKey, KeyPart.same] at h
  | cancel c => cases verb <;> simp [mutationKey, key, sameKey, KeyPart.same] at h
  | create c =>
    cases verb <;> simp only [mutationKey, key, List.cons_append, sameKey, KeyPart.same] at h <;>
      split_ifs at h <;> simp at h

/-- Mutations of one key share the options of the command. -/
theorem groups_of_key {verb : Verb} {m m' : Mutation}
    (h : sameKey (mutationKey m verb) (mutationKey m' verb) = true)
    (halike : Alike encode (.mutate verb m) (.mutate verb m')) (ops : List Operation) :
    verb.states m = verb.states m' ∧
      manyGroups wireCodec clock (manyCall heap encode ops m) verb.many =
        manyGroups wireCodec clock (manyCall heap encode ops m') verb.many := by
  cases verb with
  | complete =>
    simp only [mutationKey, List.cons_append, List.nil_append, sameKey, batchKeyValue,
      KeyPart.same, Bool.and_eq_true, decide_eq_true_eq] at h
    obtain ⟨-, hresult, hpayload, httl, hnow, hnamed⟩ := h
    obtain ⟨hr, hp⟩ := halike
    simp only [Verb.states, Verb.many, manyGroups, manyCall, ManyCall.now,
      encodedArg_congr hresult hr, encodedArg_congr hpayload hp, httl, hnow,
      named_of_same hnamed, and_self]
  | transition =>
    simp only [mutationKey, List.cons_append, List.nil_append, sameKey, batchKeyValue,
      KeyPart.same, Bool.and_eq_true, decide_eq_true_eq] at h
    obtain ⟨-, hfrom, hto, hpayload, hrun, hnow, hpriority, hnamed⟩ := h
    simp only [Verb.states, Verb.many, manyGroups, manyCall, ManyCall.now, hfrom, hto,
      encodedArg_congr hpayload halike, hrun, hnow, hpriority, named_of_same hnamed, and_self]
  | retry =>
    simp only [mutationKey, List.cons_append, List.nil_append, sameKey, batchKeyValue,
      KeyPart.same, Bool.and_eq_true, decide_eq_true_eq] at h
    obtain ⟨-, herror, hpayload, hrun, hnow, hnamed⟩ := h
    obtain ⟨he, hp⟩ := halike
    simp only [Verb.states, Verb.many, manyGroups, manyCall, ManyCall.now,
      encodedArg_congr herror he, encodedArg_congr hpayload hp, hrun, hnow,
      named_of_same hnamed, and_self]
  | fail =>
    simp only [mutationKey, List.cons_append, List.nil_append, sameKey, batchKeyValue,
      KeyPart.same, Bool.and_eq_true, decide_eq_true_eq] at h
    obtain ⟨-, herror, hpayload, httl, hnow, hnamed⟩ := h
    obtain ⟨he, hp⟩ := halike
    simp only [Verb.states, Verb.many, manyGroups, manyCall, ManyCall.now,
      encodedArg_congr herror he, encodedArg_congr hpayload hp, httl, hnow,
      named_of_same hnamed, and_self]

theorem intGroup_some (keyword target : String) (n : ℤ) :
    intGroup keyword target (some n) = [fixedGroup keyword target (.int n)] := rfl

/-- The fields of a direct mutation are in its row or among its own options. -/
theorem direct_subset {verb : Verb} {m : Mutation} (hmeta : m.stateMeta = none)
    (hrun : Expressible (.mutate verb m)) (ops : List Operation) :
    leaseGroup m.leaseToken::groups wireCodec clock (directCall heap encode m) verb.kind ⊆
      leaseGroup m.leaseToken::fencingGroup m.fencingToken::(keyGroup m.partitionKey++
        manyGroups wireCodec clock (manyCall heap encode ops m) verb.many) := by
  intro g hg
  cases verb with
  | complete =>
    simp only [groups, directCall, MutationCall.now, Verb.kind, partitionGroup, namedGroups, hmeta,
      List.mem_cons, List.mem_append, List.not_mem_nil, or_false] at hg
    simp only [Verb.many, manyGroups, manyCall, ManyCall.now, attributeGroups, metaGroups,
      valueGroups, keyGroup, fencingGroup, intGroup_some, List.mem_cons, List.mem_append,
      List.not_mem_nil, or_false]
    grind -ring -linarith
  | transition =>
    obtain ⟨n, hn⟩ := Option.isSome_iff_exists.mp hrun
    simp only [groups, directCall, MutationCall.now, Verb.kind, partitionGroup, namedGroups, hmeta,
      hn, Option.getD_some, List.mem_cons, List.mem_append, List.not_mem_nil, or_false] at hg
    simp only [Verb.many, manyGroups, manyCall, ManyCall.now, namedGroups, hn, leaseGroup, keyGroup,
      fencingGroup, intGroup_some, List.mem_cons, List.mem_append, List.not_mem_nil, or_false]
      at hg ⊢
    grind -ring -linarith
  | retry =>
    simp only [groups, directCall, MutationCall.now, Verb.kind, partitionGroup, namedGroups, hmeta,
      List.mem_cons, List.mem_append, List.not_mem_nil, or_false] at hg
    simp only [Verb.many, manyGroups, manyCall, ManyCall.now, namedGroups, keyGroup, fencingGroup,
      intGroup_some, List.mem_cons, List.mem_append, List.not_mem_nil, or_false]
    grind -ring -linarith
  | fail =>
    simp only [groups, directCall, MutationCall.now, Verb.kind, partitionGroup, namedGroups, hmeta,
      List.mem_cons, List.mem_append, List.not_mem_nil, or_false] at hg
    simp only [Verb.many, manyGroups, manyCall, ManyCall.now, namedGroups, keyGroup, fencingGroup,
      intGroup_some, List.mem_cons, List.mem_append, List.not_mem_nil, or_false]
    grind -ring -linarith

theorem cancel_of_key {c : Cancel} {op : Operation}
    (h : sameKey (key rt (.cancel c)) (key rt op) = true) : ∃ c', op = .cancel c' := by
  cases op with
  | mutate verb m => cases verb <;> simp [mutationKey, key, sameKey, KeyPart.same] at h
  | cancel c' => exact ⟨c', rfl⟩
  | create c' =>
    simp only [key, List.cons_append, sameKey, KeyPart.same] at h
    split_ifs at h <;> simp at h

theorem cancelGroups_of_key {c c' : Cancel}
    (h : sameKey (key rt (.cancel c)) (key rt (.cancel c')) = true)
    (halike : Alike encode (.cancel c) (.cancel c')) (ops : List Operation) :
    manyGroups wireCodec clock (cancelManyCall heap encode ops c) .cancel =
      manyGroups wireCodec clock (cancelManyCall heap encode ops c') .cancel := by
  simp only [key, List.cons_append, List.nil_append, sameKey, batchKeyValue, KeyPart.same,
    Bool.and_eq_true, decide_eq_true_eq] at h
  obtain ⟨-, hreason, httl, hnow, hnamed⟩ := h
  simp only [manyGroups, cancelManyCall, ManyCall.now, encodedArg_congr hreason halike, httl, hnow,
    named_of_same hnamed]

theorem cancel_subset {c : Cancel} (hmeta : c.stateMeta = none) (hlease : c.leaseToken = none)
    (ops : List Operation) :
    cancelGroups heap encode clock c ⊆ fencingGroup c.fencingToken::(keyGroup c.partitionKey++
      manyGroups wireCodec clock (cancelManyCall heap encode ops c) .cancel) := by
  intro g hg
  simp only [cancelGroups, hmeta, hlease, Option.map_none, givenGroup, List.mem_cons,
    List.mem_append, List.not_mem_nil, or_false, false_or] at hg
  simp only [manyGroups, cancelManyCall, ManyCall.now, intGroup_some, List.mem_cons,
    List.mem_append, List.not_mem_nil, or_false]
  grind -ring -linarith

theorem create_of_key {c : Create} {op : Operation}
    (h : sameKey (key rt (.create c)) (key rt op) = true) :
    ∃ c', op = .create c' ∧ c.type = c'.type ∧ c.state = c'.state ∧ c.runAtMs = c'.runAtMs ∧
      c.nowMs = c'.nowMs ∧ c.priority = c'.priority ∧ c.idempotent = c'.idempotent ∧
      limitOf rt c = limitOf rt c' := by
  cases op with
  | mutate verb m =>
    cases verb <;> simp only [mutationKey, key, List.cons_append, sameKey, KeyPart.same] at h <;>
      split_ifs at h <;> simp at h
  | cancel c' =>
    simp only [key, List.cons_append, sameKey, KeyPart.same] at h
    split_ifs at h <;> simp at h
  | create c' =>
    simp only [key, sameKey, KeyPart.same, Bool.and_eq_true, decide_eq_true_eq] at h
    obtain ⟨-, htype, hstate, hrun, hnow, hpriority, hidempotent, hlimit, -⟩ := h
    exact ⟨c', rfl, htype, hstate, hrun, hnow, hpriority, hidempotent, hlimit⟩

theorem sharedOf_empty (all : List (Named Value)) (h : ∀ d ∈ all, d = Named.empty) :
    sharedOf none all = Named.empty := by
  have hnone : all.filterMap populated = [] := by
    rw [List.filterMap_eq_nil_iff]
    intro d hd
    rw [h d hd]
    rfl
  simp [sharedOf, hnone]

/-- The options of the command are those of each of its creates. -/
theorem settings_of_key {c c' : Create} (ops : List Operation)
    (hlimit : ∃ limit, normalizeMaxActive rt c'.maxActiveMs = .ok limit)
    (h : c.type = c'.type ∧ c.state = c'.state ∧ c.runAtMs = c'.runAtMs ∧
      c.nowMs = c'.nowMs ∧ c.priority = c'.priority ∧ c.idempotent = c'.idempotent ∧
      limitOf rt c = limitOf rt c') :
    settingGroups rt clock (createManyCall rt heap encode ops c) =
      [fixedGroup "TYPE" "type" (.str c'.type),
          .field "STATE" (.str c'.state) "state" (.str c'.state),
          fixedGroup "NOW" "now_ms" (.int (c'.nowMs.getD clock))]++
        (intGroup "RUN_AT" "run_at_ms" (some (c'.runAtMs.getD (c'.nowMs.getD clock)))++
          (intGroup "PRIORITY" "priority" c'.priority++
            (boolGroup "IDEMPOTENT" "idempotent" c'.idempotent++
              (boolGroup "INDEPENDENT" "independent" (some true)++
                (givenGroup "MAX_ACTIVE_MS" "max_active_ms" (meantLimit rt c'.maxActiveMs)++
                  [Group.named "ATTRIBUTE" "attributes" [],
                    .named "STATE_META" "state_meta" []]))))) := by
  obtain ⟨limit, hlimit⟩ := hlimit
  obtain ⟨htype, hstate, hrun, hnow, hpriority, hidempotent, hsame⟩ := h
  have hof : limitOf rt c = limit := by
    rw [hsame, limitOf, hlimit]
    rfl
  have hnormal : normalizeMaxActive rt limit = .ok limit := by
    rw [normalizeMaxActive, normalized_twice hlimit]
    rfl
  have hmeant : meantLimit rt limit = meantLimit rt c'.maxActiveMs := by
    rw [normalized_limit hnormal, normalized_limit hlimit]
  have hattributes : (createManyCall rt heap encode ops c).sharedAttributes = Named.empty := by
    refine sharedOf_empty _ fun d hd => ?_
    simp only [createManyCall, List.map_map, List.mem_map] at hd
    obtain ⟨x, -, rfl⟩ := hd
    rfl
  have hmeta : (createManyCall rt heap encode ops c).sharedStateMeta = Named.empty := by
    refine sharedOf_empty _ fun d hd => ?_
    simp only [createManyCall, List.map_map, List.mem_map] at hd
    obtain ⟨x, -, rfl⟩ := hd
    rfl
  simp only [settingGroups, sharedGroups, hattributes, hmeta]
  simp only [createManyCall, CreateManyCall.now, hof, hmeant, htype, hstate, hrun, hnow, hpriority,
    hidempotent, successGroup, intGroup, givenGroup, Option.map_none, Bool.false_eq_true, if_false,
    List.nil_append, Named.empty]

end Carried

end FerricStore.Autobatch
