import FerricStore.MutationArguments

/-!
# Mutations are read back as they were meant

The options of a mutation are groups with fields of their own. The option map reads
them back whatever the bytes and the names spell, with one exception: a value under
a name that spells `PARTITIONS` is converted to a count, and a conversion that
raises anything but a type or value error stops the command.
-/

set_option autoImplicit false

namespace FerricStore.MutationArguments
open Text FlowOptions BasicCommands

section Plain

/-- The keywords of the mutations that fill one field with their argument. -/
def plainKeywords : Dict String String :=
  [("FENCING", "fencing_token"), ("NOW", "now_ms"), ("PARTITION", "partition_key"),
    ("RESULT", "result"), ("TTL", "ttl_ms"), ("LEASE_TOKEN", "lease_token"),
    ("RUN_AT", "run_at_ms"), ("PRIORITY", "priority"), ("ERROR", "error"),
    ("LEASE_MS", "lease_ms"), ("WORKER", "worker"), ("TYPE", "type"),
    ("RETENTION_TTL_MS", "retention_ttl_ms"), ("REASON", "reason")]

/-- The keywords with a rule of their own. -/
def ruledKeywords : List String :=
  ["NOPAYLOAD", "PAYLOAD", "PARTITIONS", "STATE", "IF_STATE", "RETURN", "VALUE", "VALUE_REF",
    "DROP_VALUE", "OVERRIDE_VALUE", "ATTRIBUTE", "ATTRIBUTE_MERGE", "STATE_META",
    "ATTRIBUTE_DELETE"]

/-- A keyword whose argument goes to its field as it is. -/
def isPlain (e : String × String) : Bool :=
  e.1 ∈ flowOptionTokens && !(e.1 ∈ itemMarkers) && !(e.1 ∈ ruledKeywords) &&
    !(e.1 ∈ flowThreeValueOptions) && Dict.get? flowOptionFieldNames e.1 = some e.2 &&
    !(e.2 = "max_active_ms") && !(e.2 ∈ boolFields)

theorem plainKeywords_plain : ∀ e ∈ plainKeywords, isPlain e = true := by decide +kernel

theorem mappedField_lit (keyword : String) :
    mappedField (lit keyword) = Dict.get? flowOptionFieldNames keyword := by
  have hfind (d : Dict String String) :
      (d.find? fun e => lit e.1 = lit keyword).map Prod.snd = Dict.get? d keyword := by
    induction d with
    | nil => rfl
    | cons e d ih =>
      by_cases he : e.1 = keyword
      · rw [List.find?_cons_of_pos (by simp [he]), Dict.get?, if_pos he]
        rfl
      · rw [List.find?_cons_of_neg (by simp [lit_inj, he]), ih, Dict.get?, if_neg he]
  exact hfind flowOptionFieldNames

/-- A keyword without a rule of its own goes through the table of fields. -/
theorem optionStep_unruled {rt : Runtime} {keyword : String} (h : keyword ∉ ruledKeywords)
    (idx : ℕ) (rest : List Value) (valid : List Bool) (p : Payload) :
    optionStep rt false idx (lit keyword) rest valid p =
      fieldOption rt idx (lit keyword) rest p := by
  simp only [ruledKeywords, List.mem_cons, List.not_mem_nil, or_false, not_or] at h
  obtain ⟨h1, h2, h3, h4, h5, h6, h7, h8, h9, h10, h11, h12, h13, h14⟩ := h
  simp only [optionStep, stateOption, collectOption, lit_inj, h1, h2, h3, h4, h5, h6, h7, h8,
    h9, h10, h11, h12, h13, h14, if_false]

theorem one_fits {keyword : String} {v : Value} (hknown : keyword ∈ flowOptionTokens)
    (hmarker : keyword ∉ itemMarkers) (hn : keyword ≠ "NOPAYLOAD")
    (hp : keyword ≠ "PARTITIONS") (hthree : keyword ∉ flowThreeValueOptions)
    (hv : keyword = "PAYLOAD" → isText v = false) : (⟨keyword, [v]⟩ : Emitted).Fits := by
  refine ⟨hknown, hmarker, hn, hp, by simp [fixedWidth, hthree], fun he x hx => ?_⟩
  rw [List.mem_singleton.mp hx]
  exact hv he

theorem plain_sound (rt : Runtime) {keyword target : String}
    (h : (keyword, target) ∈ plainKeywords) (v : Value) :
    (Group.field keyword v target v).Sound rt := by
  have hp := plainKeywords_plain _ h
  simp only [isPlain, Bool.and_eq_true, decide_eq_true_eq, Bool.not_eq_true',
    decide_eq_false_iff_not] at hp
  obtain ⟨⟨⟨⟨⟨⟨hknown, hmarker⟩, hruled⟩, hthree⟩, hfield⟩, hmax⟩, hbool⟩ := hp
  refine ⟨one_fits hknown hmarker ?_ ?_ hthree ?_, ?_⟩
  · rintro rfl
    exact hruled (by decide)
  · rintro rfl
    exact hruled (by decide)
  · rintro rfl
    exact absurd (by decide) hruled
  · intro idx rest valid p _ _ _
    rw [optionStep_unruled hruled, fieldOption, mappedField_lit, hfield]
    simp [requireNext, fieldValue, hmax, hbool, except_ok_bind]

theorem payload_sound (rt : Runtime) (b : Bytes) :
    (Group.field "PAYLOAD" (.bytes b) "payload" (.bytes b)).Sound rt := by
  refine ⟨one_fits (by decide +kernel) (by decide) (by decide) (by decide) (by decide)
    fun _ => rfl, ?_⟩
  · intro idx rest valid p hflag _ _
    simp [optionStep, payloadOption, lit_inj, hflag rfl, requireNext, except_ok_bind]

theorem lowerText_lit (rt : Runtime) {s t : String} (hs : isAscii (lit s) = true)
    (ht : (lit s).map lowerAscii = lit t) : rt.lowerText (lit s) = lit t := by
  rw [Runtime.lowerText, if_pos hs, ht]

theorem return_sound (rt : Runtime) {mode lower : String} (hs : isAscii (lit mode) = true)
    (ht : (lit mode).map lowerAscii = lit lower) :
    (Group.field "RETURN" (word mode) "return" (.str (lit lower))).Sound rt := by
  refine ⟨one_fits (by decide +kernel) (by decide) (by decide) (by decide) (by decide)
    fun h => absurd h (by decide), ?_⟩
  intro idx rest valid p _ _ _
  simp [optionStep, stateOption, lit_inj, word, requireNext, Runtime.text, Runtime.str,
    except_ok_bind, lowerText_lit rt hs ht]

end Plain

section Groups

variable (codec : Codec) (clock : ℤ) (c : MutationCall)

def givenGroup (keyword target : String) : Option Value → List Group
  | some v => [.field keyword v target v]
  | none => []

def encodedGroup (keyword target : String) (v : Value) : List Group :=
  if v.isNone then [] else [.field keyword (.bytes (codec v)) target (.bytes (codec v))]

def namedGroups (o : NamedOptions) : List Group :=
  [.named "ATTRIBUTE_MERGE" "attributes_merge" o.attributesMerge.val,
    .names "ATTRIBUTE_DELETE" "attributes_delete" o.attributesDelete,
    .named "STATE_META" "state_meta" o.stateMeta.val,
    .named "VALUE" "values" (encoded codec o.values),
    .named "VALUE_REF" "value_refs" (references o.valueRefs),
    .names "DROP_VALUE" "drop_values" o.dropValues,
    .names "OVERRIDE_VALUE" "override_values" o.overrideValues]

def partitionGroup : List Group :=
  givenGroup "PARTITION" "partition_key" (c.partitionKey.map PartitionKey.value)

def intGroup (keyword target : String) (v : Option ℤ) : List Group :=
  givenGroup keyword target (v.map .int)

def fixedGroup (keyword target : String) (v : Value) : Group := .field keyword v target v

def returnGroup : List Group :=
  if c.returnJob then
    [.field "RETURN" (word "JOBS_COMPACT") "return" (.str (lit "jobs_compact"))] else []

/-- The options of a mutation in groups. -/
def groups : MutationKind → List Group
  | .complete =>
    [fixedGroup "FENCING" "fencing_token" (.int c.fencingToken),
        fixedGroup "NOW" "now_ms" (.int (c.now clock))]++
      (partitionGroup c++(encodedGroup codec "RESULT" "result" c.result++
        (encodedGroup codec "PAYLOAD" "payload" c.payload++
          (intGroup "TTL" "ttl_ms" c.ttlMs++namedGroups codec c.options))))
  | .transition =>
    [fixedGroup "LEASE_TOKEN" "lease_token" (.bytes c.leaseToken),
        fixedGroup "FENCING" "fencing_token" (.int c.fencingToken),
        fixedGroup "NOW" "now_ms" (.int (c.now clock))]++
      (partitionGroup c++(encodedGroup codec "PAYLOAD" "payload" c.payload++
        (intGroup "RUN_AT" "run_at_ms" (some (c.runAtMs.getD (c.now clock)))++
          (intGroup "PRIORITY" "priority" c.priority++namedGroups codec c.options))))
  | .retry =>
    [fixedGroup "FENCING" "fencing_token" (.int c.fencingToken),
        fixedGroup "NOW" "now_ms" (.int (c.now clock))]++
      (partitionGroup c++(encodedGroup codec "ERROR" "error" c.error++
        (encodedGroup codec "PAYLOAD" "payload" c.payload++
          (intGroup "RUN_AT" "run_at_ms" c.runAtMs++namedGroups codec c.options))))
  | .fail =>
    [fixedGroup "FENCING" "fencing_token" (.int c.fencingToken),
        fixedGroup "NOW" "now_ms" (.int (c.now clock))]++
      (partitionGroup c++(encodedGroup codec "ERROR" "error" c.error++
        (encodedGroup codec "PAYLOAD" "payload" c.payload++
          (intGroup "TTL" "ttl_ms" c.ttlMs++namedGroups codec c.options))))
  | .stepContinue =>
    [fixedGroup "FENCING" "fencing_token" (.int c.fencingToken),
        fixedGroup "LEASE_MS" "lease_ms" (.int c.leaseMs),
        fixedGroup "NOW" "now_ms" (.int (c.now clock))]++
      (partitionGroup c++(givenGroup "WORKER" "worker" (c.worker.map Value.str)++
        (encodedGroup codec "PAYLOAD" "payload" c.payload++
          (returnGroup c++namedGroups codec c.options))))

end Groups

section Flat

/-- The arguments of a list of groups. -/
def written (gs : List Group) : List Value := flat (emittedAll gs)

theorem written_append (as bs : List Group) : written (as++bs) = written as++written bs := by
  simp [written, emittedAll, flat]

theorem written_cons (g : Group) (gs : List Group) :
    written (g::gs) = flat g.emitted++written gs := by
  simp [written, emittedAll, flat]

theorem written_nil : written [] = [] := rfl

theorem fieldsAll_append (as bs : List Group) :
    fieldsAll (as++bs) = fieldsAll as++fieldsAll bs := List.flatMap_append

theorem fieldsAll_cons (g : Group) (gs : List Group) :
    fieldsAll (g::gs) = g.fields++fieldsAll gs := List.flatMap_cons

theorem written_given (keyword target : String) (v : Option Value) :
    written (givenGroup keyword target v) = append keyword v ∧
      fieldsAll (givenGroup keyword target v) = givenField target v := by
  cases v <;> exact ⟨rfl, rfl⟩

theorem written_encoded (codec : Codec) (keyword target : String) (v : Value) :
    written (encodedGroup codec keyword target v) = appendEncoded keyword codec v ∧
      fieldsAll (encodedGroup codec keyword target v) = encodedField codec target v := by
  unfold encodedGroup appendEncoded encodedField
  split <;> exact ⟨rfl, rfl⟩

theorem flat_named (keyword target : String) (entries : Dict Str Value) :
    flat (Group.named keyword target entries).emitted = appendEntries keyword entries := by
  simp only [Group.emitted, flat, List.flatMap_map, appendEntries]
  rfl

theorem flat_names (keyword target : String) (items : List Str) :
    flat (Group.names keyword target items).emitted = appendNames keyword items := by
  simp only [Group.emitted, flat, List.flatMap_map, appendNames]
  rfl

theorem written_named (codec : Codec) (o : NamedOptions) :
    written (namedGroups codec o) = appendNamed codec o ∧
      fieldsAll (namedGroups codec o) = namedFieldsOf codec o := by
  have hattributes : appendAttributes o =
      appendEntries "ATTRIBUTE_MERGE" o.attributesMerge.val++
        appendNames "ATTRIBUTE_DELETE" o.attributesDelete := by
    unfold appendAttributes
    split
    · next h => simp [h.1, h.2, appendEntries, appendNames]
    · rfl
  constructor
  · simp only [namedGroups, written_cons, written_nil, flat_named, flat_names, appendNamed,
      hattributes, appendStateMeta, appendNamedValues, List.append_assoc, List.append_nil]
  · simp only [namedGroups, fieldsAll, List.flatMap_cons, List.flatMap_nil, Group.fields,
      namedFieldsOf, List.append_nil]

theorem written_fixed (keyword target : String) (v : Value) (gs : List Group) :
    written (fixedGroup keyword target v::gs) = word keyword::v::written gs := rfl

theorem written_return (c : MutationCall) :
    written (returnGroup c) =
        (if c.returnJob then [word "RETURN", word "JOBS_COMPACT"] else []) ∧
      fieldsAll (returnGroup c) =
        (if c.returnJob then [("return", .str (lit "jobs_compact"))] else []) := by
  unfold returnGroup
  split <;> exact ⟨rfl, rfl⟩

theorem appendPriority_ok {priority : Option ℤ} {args : List Value}
    (h : appendPriority priority = .ok args) : args = intArgs "PRIORITY" priority := by
  cases priority with
  | none =>
    cases h
    rfl
  | some n =>
    simp only [appendPriority] at h
    split at h
    · cases h
    · cases h
      rfl

/-- The arguments after the positional ones are the groups of the call. -/
theorem drop_optionStart {codec : Codec} {clock : ℤ} {c : MutationCall} {kind : MutationKind}
    {args : List Value} (h : commandArgs codec clock c kind = .ok args) :
    args.drop (optionStart kind) = written (groups codec clock c kind) := by
  cases kind with
  | complete =>
    obtain ⟨-, -, h⟩ := except_bind_eq_ok h
    cases h
    simp only [groups, List.cons_append, List.nil_append, written_fixed, written_append,
      (written_given ..).1, (written_encoded ..).1, (written_named ..).1, partitionGroup,
      intGroup]
    rfl
  | transition =>
    obtain ⟨-, -, h⟩ := except_bind_eq_ok h
    obtain ⟨priority, hp, h⟩ := except_bind_eq_ok h
    cases h
    rw [appendPriority_ok hp]
    simp only [groups, List.cons_append, List.nil_append, written_fixed, written_append,
      (written_given ..).1, (written_encoded ..).1, (written_named ..).1, partitionGroup,
      intGroup]
    rfl
  | retry =>
    obtain ⟨-, -, h⟩ := except_bind_eq_ok h
    cases h
    simp only [groups, List.cons_append, List.nil_append, written_fixed, written_append,
      (written_given ..).1, (written_encoded ..).1, (written_named ..).1, partitionGroup,
      intGroup]
    rfl
  | fail =>
    obtain ⟨-, -, h⟩ := except_bind_eq_ok h
    cases h
    simp only [groups, List.cons_append, List.nil_append, written_fixed, written_append,
      (written_given ..).1, (written_encoded ..).1, (written_named ..).1, partitionGroup,
      intGroup]
    rfl
  | stepContinue =>
    obtain ⟨-, -, h⟩ := except_bind_eq_ok h
    cases h
    simp only [groups, List.cons_append, List.nil_append, written_fixed, written_append,
      (written_given ..).1, (written_encoded ..).1, (written_named ..).1, partitionGroup,
      (written_return ..).1]
    rfl

theorem fieldsAll_groups (codec : Codec) (clock : ℤ) (c : MutationCall) (kind : MutationKind) :
    fieldsAll (groups codec clock c kind) = meantFields codec clock c kind := by
  cases kind <;>
    simp only [groups, meantFields, fieldsAll_append, (written_given ..).2,
      (written_encoded ..).2, (written_named ..).2, partitionGroup, intGroup,
      (written_return ..).2] <;>
    rfl

end Flat

section Sound

variable {rt : Runtime}

theorem given_sound {keyword target : String} (h : (keyword, target) ∈ plainKeywords)
    (v : Option Value) : ∀ g ∈ givenGroup keyword target v, g.Sound rt := by
  intro g hg
  cases v with
  | none => cases hg
  | some v =>
    rw [List.mem_singleton.mp hg]
    exact plain_sound rt h v

theorem encoded_sound (codec : Codec) {keyword target : String}
    (h : (keyword, target) ∈ ("PAYLOAD", "payload")::plainKeywords) (v : Value) :
    ∀ g ∈ encodedGroup codec keyword target v, g.Sound rt := by
  intro g hg
  unfold encodedGroup at hg
  split at hg
  · cases hg
  · rw [List.mem_singleton.mp hg]
    rcases List.mem_cons.mp h with he | h
    · cases he
      exact payload_sound rt _
    · exact plain_sound rt h _

theorem fixed_sound {keyword target : String} (h : (keyword, target) ∈ plainKeywords)
    (v : Value) : (fixedGroup keyword target v).Sound rt := plain_sound rt h v

theorem return_group_sound (c : MutationCall) : ∀ g ∈ returnGroup c, g.Sound rt := by
  intro g hg
  unfold returnGroup at hg
  split at hg
  · rw [List.mem_singleton.mp hg]
    exact return_sound rt (by decide) (by decide)
  · cases hg

theorem keys_map {β γ : Type} (d : Dict Str β) (f : β → γ) :
    Dict.keys (d.map fun e => (e.1, f e.2)) = Dict.keys d := by
  simp [Dict.keys]

theorem named_sound (codec : Codec) (o : NamedOptions) :
    ∀ g ∈ namedGroups codec o, g.Sound rt := by
  have hvalues : (Dict.keys (encoded codec o.values)).Nodup := by
    rw [encoded, keys_map o.values.val fun v => Value.bytes (codec v)]
    exact o.values.property
  have hrefs : (Dict.keys (references o.valueRefs)).Nodup := by
    rw [references, keys_map o.valueRefs.val Value.str]
    exact o.valueRefs.property
  intro g hg
  simp only [namedGroups, List.mem_cons, List.not_mem_nil, or_false] at hg
  rcases hg with rfl | rfl | rfl | rfl | rfl | rfl | rfl
  · exact ⟨by decide, o.attributesMerge.property⟩
  · exact (by decide : ("ATTRIBUTE_DELETE", "attributes_delete") ∈ nameFields)
  · exact ⟨by decide, o.stateMeta.property⟩
  · exact ⟨by decide, hvalues⟩
  · exact ⟨by decide, hrefs⟩
  · exact (by decide : ("DROP_VALUE", "drop_values") ∈ nameFields)
  · exact (by decide : ("OVERRIDE_VALUE", "override_values") ∈ nameFields)

theorem groups_sound (codec : Codec) (clock : ℤ) (c : MutationCall) (kind : MutationKind) :
    ∀ g ∈ groups codec clock c kind, g.Sound rt := by
  cases kind <;>
    simp only [groups, List.forall_mem_append, List.forall_mem_cons, List.not_mem_nil,
      false_implies, implies_true, and_true, partitionGroup, intGroup]
  · exact ⟨⟨fixed_sound (by decide) _, fixed_sound (by decide) _⟩, given_sound (by decide) _,
      encoded_sound codec (by decide) _, encoded_sound codec (by decide) _,
      given_sound (by decide) _, named_sound codec _⟩
  · exact ⟨⟨fixed_sound (by decide) _, fixed_sound (by decide) _, fixed_sound (by decide) _⟩,
      given_sound (by decide) _, encoded_sound codec (by decide) _, given_sound (by decide) _,
      given_sound (by decide) _, named_sound codec _⟩
  · exact ⟨⟨fixed_sound (by decide) _, fixed_sound (by decide) _⟩, given_sound (by decide) _,
      encoded_sound codec (by decide) _, encoded_sound codec (by decide) _,
      given_sound (by decide) _, named_sound codec _⟩
  · exact ⟨⟨fixed_sound (by decide) _, fixed_sound (by decide) _⟩, given_sound (by decide) _,
      encoded_sound codec (by decide) _, encoded_sound codec (by decide) _,
      given_sound (by decide) _, named_sound codec _⟩
  · exact ⟨⟨fixed_sound (by decide) _, fixed_sound (by decide) _, fixed_sound (by decide) _⟩,
      given_sound (by decide) _, given_sound (by decide) _, encoded_sound codec (by decide) _,
      return_group_sound c, named_sound codec _⟩

end Sound

section Targets

def namedTargets : List String :=
  ["attributes_merge", "attributes_delete", "state_meta", "values", "value_refs",
    "drop_values", "override_values"]

/-- The fields that a mutation can fill. -/
def targets : MutationKind → List String
  | .complete => ["fencing_token", "now_ms"]++(["partition_key"]++(["result"]++(["payload"]++
      (["ttl_ms"]++namedTargets))))
  | .transition => ["lease_token", "fencing_token", "now_ms"]++(["partition_key"]++
      (["payload"]++(["run_at_ms"]++(["priority"]++namedTargets))))
  | .retry => ["fencing_token", "now_ms"]++(["partition_key"]++(["error"]++(["payload"]++
      (["run_at_ms"]++namedTargets))))
  | .fail => ["fencing_token", "now_ms"]++(["partition_key"]++(["error"]++(["payload"]++
      (["ttl_ms"]++namedTargets))))
  | .stepContinue => ["fencing_token", "lease_ms", "now_ms"]++(["partition_key"]++
      (["worker"]++(["payload"]++(["return"]++namedTargets))))

theorem given_target (keyword target : String) (v : Option Value) :
    ((givenGroup keyword target v).map Group.target).Sublist [target] := by
  cases v with
  | none => exact List.nil_sublist _
  | some v => exact List.Sublist.refl _

theorem encoded_target (codec : Codec) (keyword target : String) (v : Value) :
    ((encodedGroup codec keyword target v).map Group.target).Sublist [target] := by
  unfold encodedGroup
  split
  · exact List.nil_sublist _
  · exact List.Sublist.refl _

theorem return_target (c : MutationCall) :
    ((returnGroup c).map Group.target).Sublist ["return"] := by
  unfold returnGroup
  split
  · exact List.Sublist.refl _
  · exact List.nil_sublist _

theorem groups_targets (codec : Codec) (clock : ℤ) (c : MutationCall) (kind : MutationKind) :
    ((groups codec clock c kind).map Group.target).Sublist (targets kind) := by
  cases kind <;> simp only [groups, targets, List.map_append, partitionGroup, intGroup]
  · exact (List.Sublist.refl _).append ((given_target ..).append ((encoded_target ..).append
      ((encoded_target ..).append ((given_target ..).append (List.Sublist.refl _)))))
  · exact (List.Sublist.refl _).append ((given_target ..).append ((encoded_target ..).append
      ((given_target ..).append ((given_target ..).append (List.Sublist.refl _)))))
  · exact (List.Sublist.refl _).append ((given_target ..).append ((encoded_target ..).append
      ((encoded_target ..).append ((given_target ..).append (List.Sublist.refl _)))))
  · exact (List.Sublist.refl _).append ((given_target ..).append ((encoded_target ..).append
      ((encoded_target ..).append ((given_target ..).append (List.Sublist.refl _)))))
  · exact (List.Sublist.refl _).append ((given_target ..).append ((given_target ..).append
      ((encoded_target ..).append ((return_target c).append (List.Sublist.refl _)))))

theorem targets_distinct (kind : MutationKind) :
    (targets kind).Nodup ∧ "states" ∉ targets kind := by
  cases kind <;> decide

end Targets

section Calm

variable {rt : Runtime}

/-- Every value under a name that spells `PARTITIONS` can be tried as a count. -/
def CountsSafely (rt : Runtime) (entries : Dict Str Value) : Prop :=
  ∀ e ∈ entries, token rt (.str e.1) = some "PARTITIONS" →
    ∃ count, nonNegativeInt rt e.2 = .ok count

theorem calm_given (keyword target : String) (v : Option Value) :
    ∀ g ∈ givenGroup keyword target v, g.Calm rt := by
  intro g hg
  cases v with
  | none => cases hg
  | some v =>
    rw [List.mem_singleton.mp hg]
    trivial

theorem calm_encoded (codec : Codec) (keyword target : String) (v : Value) :
    ∀ g ∈ encodedGroup codec keyword target v, g.Calm rt := by
  intro g hg
  unfold encodedGroup at hg
  split at hg
  · cases hg
  · rw [List.mem_singleton.mp hg]
    trivial

theorem calm_return (c : MutationCall) : ∀ g ∈ returnGroup c, g.Calm rt := by
  intro g hg
  unfold returnGroup at hg
  split at hg
  · rw [List.mem_singleton.mp hg]
    trivial
  · cases hg

theorem calm_named (hrt : TextNumbers rt) (codec : Codec) (o : NamedOptions) :
    (∀ g ∈ namedGroups codec o, g.Calm rt) ↔
      CountsSafely rt o.attributesMerge.val ∧ CountsSafely rt o.stateMeta.val := by
  have hvalues : (Group.named "VALUE" "values" (encoded codec o.values)).Calm rt := by
    intro e he _
    obtain ⟨x, -, rfl⟩ := List.mem_map.mp he
    exact nonNegativeInt_text hrt (.inr ⟨_, rfl⟩)
  have hrefs : (Group.named "VALUE_REF" "value_refs" (references o.valueRefs)).Calm rt := by
    intro e he _
    obtain ⟨x, -, rfl⟩ := List.mem_map.mp he
    exact nonNegativeInt_text hrt (.inl rfl)
  simp only [namedGroups, List.forall_mem_cons, List.not_mem_nil, false_implies, implies_true,
    and_true, hvalues, hrefs]
  simp only [Group.Calm, CountsSafely, true_and, and_true]

theorem calm_groups (hrt : TextNumbers rt) (codec : Codec) (clock : ℤ) (c : MutationCall)
    (kind : MutationKind) :
    (∀ g ∈ groups codec clock c kind, g.Calm rt) ↔
      CountsSafely rt c.options.attributesMerge.val ∧ CountsSafely rt c.options.stateMeta.val := by
  rw [← calm_named hrt codec c.options]
  have hfixed (keyword target : String) (v : Value) :
      (fixedGroup keyword target v).Calm rt := trivial
  have hgiven (keyword target : String) (v : Option Value) :
      (∀ g ∈ givenGroup keyword target v, g.Calm rt) ↔ True :=
    iff_true_intro (calm_given keyword target v)
  have hencoded (keyword target : String) (v : Value) :
      (∀ g ∈ encodedGroup codec keyword target v, g.Calm rt) ↔ True :=
    iff_true_intro (calm_encoded codec keyword target v)
  have hreturn : (∀ g ∈ returnGroup c, g.Calm rt) ↔ True := iff_true_intro (calm_return c)
  cases kind <;>
    simp only [groups, List.forall_mem_append, List.forall_mem_cons, List.not_mem_nil,
      false_implies, implies_true, and_true, true_and, partitionGroup, intGroup, hfixed, hgiven,
      hencoded, hreturn]

end Calm

/-- The options of a mutation are read back as the fields it meant, exactly when no
value under a name that spells `PARTITIONS` stops the analysis. -/
theorem mutation_read_back (rt : Runtime) (hrt : TextNumbers rt) (codec : Codec) (clock : ℤ)
    (c : MutationCall) (kind : MutationKind) (args : List Value)
    (hargs : commandArgs codec clock c kind = .ok args) :
    optionMap rt false (args.drop (optionStart kind)) = .ok (meantFields codec clock c kind) ↔
      CountsSafely rt c.options.attributesMerge.val ∧ CountsSafely rt c.options.stateMeta.val := by
  obtain ⟨hnodup, hstates⟩ := targets_distinct kind
  have hsub := groups_targets codec clock c kind
  rw [drop_optionStart hargs, ← fieldsAll_groups, ← calm_groups hrt codec clock c kind]
  exact optionMap_iff hrt (groups_sound codec clock c kind) (hnodup.sublist hsub)
    fun hm => hstates (hsub.subset hm)

section Samples

/-- A completion with opaque bytes that spell a keyword, and one attribute. -/
def sampleCall (name : String) (value : Value) : MutationCall where
  id := lit "flow-1"
  leaseToken := [0x74]
  fencingToken := 7
  payload := .bytes (utf8 (lit "PAYLOAD"))
  options := { attributesMerge := ⟨[(lit name, value)], by simp [Dict.keys]⟩ }

def sampleCodec : Codec
  | .bytes b => b
  | _ => []

/-- An interpreter that raises `OverflowError` for an infinite float. -/
def overflowing : Runtime := { Runtime.ascii with
  int := fun v => match v with
    | .float _ => .error .overflowError
    | _ => .error .valueError }

theorem overflowing_textNumbers : TextNumbers overflowing := by
  rintro v e (ht | ⟨b, rfl⟩) he
  · cases v with
    | str s =>
      cases he
      rfl
    | _ => cases ht
  · cases he
    rfl

theorem sample_read_back :
    (∃ args, commandArgs sampleCodec 5 (sampleCall "PAYLOAD" (.int 3)) .complete = .ok args) ∧
      ∀ args, commandArgs sampleCodec 5 (sampleCall "PAYLOAD" (.int 3)) .complete = .ok args →
        optionMap overflowing false (args.drop 3) =
          .ok (meantFields sampleCodec 5 (sampleCall "PAYLOAD" (.int 3)) .complete) := by
  refine ⟨⟨_, rfl⟩, fun args hargs => ?_⟩
  refine (mutation_read_back overflowing overflowing_textNumbers sampleCodec 5
    (sampleCall "PAYLOAD" (.int 3)) .complete args hargs).mpr ⟨?_, ?_⟩
  · intro e he _
    cases List.mem_singleton.mp he
    exact nonNegativeInt_int _ 3
  · intro e he
    cases he

/-- An infinite attribute named `PARTITIONS` stops the command. -/
theorem infinite_partitions_attribute :
    ∃ args, commandArgs sampleCodec 5
        (sampleCall "PARTITIONS" (.float 0x7FF0000000000000#64)) .complete = .ok args ∧
      optionMap overflowing false (args.drop 3) = .error .overflowError := by
  refine ⟨_, rfl, ?_⟩
  decide +kernel

end Samples

end FerricStore.MutationArguments
