import FerricStore.CreateManyArguments
import FerricStore.ManyRows

/-!
# The options of creating many flows

The options before the items are groups with fields of their own. The shared values
are among them only in the plain layout. What can stop reading them is a shared
attribute or state metadata value under a name that spells `PARTITIONS`.
-/

set_option autoImplicit false

namespace FerricStore.CreateManyArguments
open Text BasicCommands FlowOptions FlowCommands FlowManyPayloads MutationArguments ManyArguments

section Limits

variable {rt : Runtime}

/-- A time limit is a whole number or the word for none. -/
theorem normalized_cases {v limit : Value} (h : normalizeMaxActive rt v = .ok limit) :
    limit = .none ∨ limit = word "INFINITY" ∨
      ∃ n, limit = .int n ∧ 1 ≤ n ∧ n ≤ maxFlowActiveMs := by
  unfold normalizeMaxActive normalizeOptionalMaxActiveMs at h
  split at h
  · cases h
    exact .inl rfl
  · split at h
    · cases h
      exact .inr (.inl rfl)
    · cases h
  · split at h
    · cases h
      exact .inr (.inl rfl)
    · cases h
  · split at h
    · next hn =>
      cases h
      exact .inr (.inr ⟨_, rfl, hn⟩)
    · cases h
  · cases h

theorem normalized_twice {v limit : Value} (h : normalizeMaxActive rt v = .ok limit) :
    normalizeOptionalMaxActiveMs rt limit = .ok limit := by
  rcases normalized_cases h with rfl | rfl | ⟨n, rfl, hn⟩
  · rfl
  · simp only [word, normalizeOptionalMaxActiveMs]
    rw [lowerText_lit rt (by decide) (by decide : _ = lit "infinity"), if_pos rfl]
  · simp only [normalizeOptionalMaxActiveMs, if_pos hn]

theorem normalized_limit {v limit : Value} (h : normalizeMaxActive rt v = .ok limit) :
    meantLimit rt v = if limit.isNone then none else some limit := by
  rw [meantLimit, h]
  cases limit <;> rfl

theorem limit_cases {v limit : Value} (h : meantLimit rt v = some limit) :
    limit = word "INFINITY" ∨ ∃ n, limit = .int n := by
  unfold meantLimit at h
  cases hv : normalizeMaxActive rt v with
  | error e =>
    rw [hv] at h
    cases h
  | ok w =>
    rw [hv] at h
    obtain ⟨hw, hnone⟩ := Option.filter_eq_some_iff.mp h
    cases hw
    rcases normalized_cases hv with rfl | rfl | ⟨n, rfl, -⟩
    · cases hnone
    · exact .inl rfl
    · exact .inr ⟨n, rfl⟩

end Limits

section Groups

variable (rt : Runtime) (codec : Codec) (clock : ℤ) (c : CreateManyCall)

/-- A map that all items share: the given one, else the first that an item has. -/
def sharedOf (given : Option (Named Value)) (all : List (Named Value)) : Named Value :=
  (given.or (all.filterMap populated).head?).getD Named.empty

def CreateManyCall.sharedAttributes : Named Value :=
  sharedOf c.attributes (c.items.map (·.attributes))

def CreateManyCall.sharedStateMeta : Named Value :=
  sharedOf c.stateMeta (c.items.map (·.stateMeta))

def sharedGroups : List Group :=
  [.named "ATTRIBUTE" "attributes" c.sharedAttributes.val,
    .named "STATE_META" "state_meta" c.sharedStateMeta.val]

/-- The shared values, which the extended layouts give to every item instead. -/
def plainValueGroups : List Group :=
  if c.extended then []
  else [.named "VALUE" "values" (encoded codec c.values),
    .named "VALUE_REF" "value_refs" (references c.valueRefs)]

/-- The options of a call that are no values, in groups. -/
def settingGroups : List Group :=
  [fixedGroup "TYPE" "type" (.str c.type), .field "STATE" (.str c.state) "state" (.str c.state),
      fixedGroup "NOW" "now_ms" (.int (c.now clock))]++
    (intGroup "RUN_AT" "run_at_ms" (some (c.runAtMs.getD (c.now clock)))++
      (intGroup "PRIORITY" "priority" c.priority++
        (boolGroup "IDEMPOTENT" "idempotent" c.idempotent++
          (boolGroup "INDEPENDENT" "independent" c.independent++
            (successGroup c.returnOkOnSuccess++
              (intGroup "RETENTION_TTL_MS" "retention_ttl_ms" c.retentionTtlMs++
                (givenGroup "MAX_ACTIVE_MS" "max_active_ms" (meantLimit rt c.maxActiveMs)++
                  sharedGroups c)))))))

/-- The options of a call in groups. -/
def createGroups : List Group := settingGroups rt clock c++plainValueGroups codec c

theorem sharedMap_ok {agrees : Matcher} {all : List (Named Value)}
    {given result : Option (Named Value)}
    (h : sharedMap agrees (all.map populated) given = .ok result) :
    result.getD Named.empty = sharedOf given all := by
  have hall : (all.map populated).filterMap id = all.filterMap populated := by
    simp [List.filterMap_map]
  unfold sharedMap at h
  unfold sharedOf
  cases given with
  | some reference =>
    simp only at h
    split at h
    · cases h
    · cases h
      rfl
  | none =>
    simp only [hall] at h
    cases hp : all.filterMap populated with
    | nil =>
      rw [hp] at h
      cases h
      rfl
    | cons first others =>
      rw [hp] at h
      simp only at h
      split at h
      · cases h
      · cases h
        rfl

end Groups

section Sound

variable {rt : Runtime}

theorem state_sound (rt : Runtime) (v : Value) : (Group.field "STATE" v "state" v).Sound rt := by
  refine ⟨one_fits (by decide +kernel) (by decide) (by decide) (by decide) (by decide)
    fun h => absurd h (by decide), ?_⟩
  intro idx rest valid p _ hp hs
  simp [optionStep, stateOption, lit_inj, requireNext, except_ok_bind, stateField,
    Dict.get?_eq_none_of_not_mem p "states" hs, Dict.get?_eq_none_of_not_mem p "state" hp]

theorem limit_sound (rt : Runtime) (v : Value) :
    ∀ g ∈ givenGroup "MAX_ACTIVE_MS" "max_active_ms" (meantLimit rt v), g.Sound rt := by
  intro g hg
  cases hl : meantLimit rt v with
  | none =>
    rw [hl] at hg
    cases hg
  | some limit =>
    rw [hl] at hg
    rw [List.mem_singleton.mp hg]
    have htwice : normalizeOptionalMaxActiveMs rt limit = .ok limit := by
      unfold meantLimit at hl
      cases hv : normalizeMaxActive rt v with
      | error e =>
        rw [hv] at hl
        cases hl
      | ok w =>
        rw [hv] at hl
        cases (Option.filter_eq_some_iff.mp hl).1
        exact normalized_twice hv
    refine ⟨one_fits (by decide +kernel) (by decide) (by decide) (by decide) (by decide)
      fun h => absurd h (by decide), ?_⟩
    intro idx rest valid p _ _ _
    rw [optionStep_unruled (by decide), fieldOption, mappedField_lit,
      show Dict.get? flowOptionFieldNames "MAX_ACTIVE_MS" = some "max_active_ms" by
        decide +kernel]
    simp only [requireNext, List.getElem?_cons_zero, except_ok_bind, fieldValue, if_true,
      htwice]

theorem shared_sound (c : CreateManyCall) : ∀ g ∈ sharedGroups c, g.Sound rt := by
  intro g hg
  simp only [sharedGroups, List.mem_cons, List.not_mem_nil, or_false] at hg
  rcases hg with rfl | rfl
  · exact ⟨by decide, c.sharedAttributes.property⟩
  · exact ⟨by decide, c.sharedStateMeta.property⟩

theorem plain_values_sound (codec : Codec) (c : CreateManyCall) :
    ∀ g ∈ plainValueGroups codec c, g.Sound rt := by
  intro g hg
  refine named_sound codec { values := c.values, valueRefs := c.valueRefs } g ?_
  unfold plainValueGroups at hg
  split at hg
  · cases hg
  · simp only [List.mem_cons, List.not_mem_nil, or_false] at hg
    rcases hg with rfl | rfl <;> simp [namedGroups]

theorem createGroups_sound (codec : Codec) (clock : ℤ) (c : CreateManyCall) :
    ∀ g ∈ createGroups rt codec clock c, g.Sound rt := by
  simp only [createGroups, settingGroups, List.forall_mem_append, List.forall_mem_cons,
    List.not_mem_nil, false_implies, implies_true, and_true, intGroup]
  exact ⟨⟨⟨fixed_sound (by decide) _, state_sound rt _, fixed_sound (by decide) _⟩,
    given_sound (by decide) _, given_sound (by decide) _, bool_sound (by decide) _,
    bool_sound (by decide) _, success_sound _, given_sound (by decide) _, limit_sound rt _,
    shared_sound c⟩, plain_values_sound codec c⟩

end Sound

section Targets

/-- The fields that the settings of a call can fill. -/
def settingTargets : List String :=
  ["type", "state", "now_ms"]++(["run_at_ms"]++(["priority"]++(["idempotent"]++
    (["independent"]++(["return"]++(["retention_ttl_ms"]++(["max_active_ms"]++
      ["attributes", "state_meta"])))))))

theorem settingGroups_targets (rt : Runtime) (clock : ℤ) (c : CreateManyCall) :
    ((settingGroups rt clock c).map Group.target).Sublist settingTargets := by
  simp only [settingGroups, settingTargets, List.map_append, intGroup]
  exact (List.Sublist.refl _).append ((given_target ..).append ((given_target ..).append
    ((bool_target ..).append ((bool_target ..).append ((success_target _).append
      ((given_target ..).append ((given_target ..).append (List.Sublist.refl _))))))))

theorem createGroups_targets (rt : Runtime) (codec : Codec) (clock : ℤ) (c : CreateManyCall) :
    ((createGroups rt codec clock c).map Group.target).Nodup ∧
      "states" ∉ (createGroups rt codec clock c).map Group.target := by
  have hplain : ((plainValueGroups codec c).map Group.target).Sublist
      ["values", "value_refs"] := by
    unfold plainValueGroups
    split
    · exact List.nil_sublist _
    · exact List.Sublist.refl _
  have hsub : ((createGroups rt codec clock c).map Group.target).Sublist
      (settingTargets++["values", "value_refs"]) := by
    rw [createGroups, List.map_append]
    exact (settingGroups_targets rt clock c).append hplain
  have hnodup : (settingTargets++["values", "value_refs"]).Nodup := by decide
  have hstates : "states" ∉ settingTargets++["values", "value_refs"] := by decide
  exact ⟨hnodup.sublist hsub, fun hm => hstates (hsub.subset hm)⟩

theorem get?_mapField (target : String) (entries : Dict Str Value) :
    Dict.get? (mapField target entries) target = mapValue entries := by
  unfold mapField mapValue
  split
  · rfl
  · exact if_pos rfl

/-- What the options say about values is what the plain layout shares. -/
theorem createFields_values (rt : Runtime) (codec : Codec) (clock : ℤ) (c : CreateManyCall) :
    Dict.get? (fieldsAll (createGroups rt codec clock c)) "partition_key" = none ∧
    Dict.get? (fieldsAll (createGroups rt codec clock c)) "values" =
      (if c.extended then none else mapValue (encoded codec c.values)) ∧
    Dict.get? (fieldsAll (createGroups rt codec clock c)) "value_refs" =
      (if c.extended then none else mapValue (references c.valueRefs)) := by
  have hsub := settingGroups_targets rt clock c
  have hget {field : String} (h : field ∉ settingTargets) :
      Dict.get? (fieldsAll (createGroups rt codec clock c)) field =
        Dict.get? (fieldsAll (plainValueGroups codec c)) field := by
    rw [createGroups, fieldsAll_append, Dict.get?_append,
      absent_field fun hm => h (hsub.subset hm), Option.none_or]
  rw [hget (by decide), hget (by decide), hget (by decide)]
  unfold plainValueGroups
  split
  · exact ⟨rfl, rfl, rfl⟩
  · have hfields : fieldsAll [.named "VALUE" "values" (encoded codec c.values),
        .named "VALUE_REF" "value_refs" (references c.valueRefs)] =
        mapField "values" (encoded codec c.values)++
          mapField "value_refs" (references c.valueRefs) := by
      simp [fieldsAll, Group.fields]
    have hother {field target : String} (entries : Dict Str Value) (hne : target ≠ field) :
        Dict.get? (mapField target entries) field = none := by
      unfold mapField
      split
      · rfl
      · exact if_neg hne
    rw [hfields, Dict.get?_append, Dict.get?_append, Dict.get?_append, get?_mapField,
      get?_mapField, hother _ (by decide), hother _ (by decide), hother _ (by decide),
      hother _ (by decide)]
    exact ⟨rfl, Option.or_none, Option.none_or⟩

end Targets

section Calm

variable {rt : Runtime}

theorem calm_createGroups (hrt : TextNumbers rt) (codec : Codec) (clock : ℤ)
    (c : CreateManyCall) :
    (∀ g ∈ createGroups rt codec clock c, g.Calm rt) ↔
      CountsSafely rt c.sharedAttributes.val ∧ CountsSafely rt c.sharedStateMeta.val := by
  have hfixed (keyword target : String) (v : Value) :
      (fixedGroup keyword target v).Calm rt ↔ True := Iff.rfl
  have hfield (keyword target : String) (v w : Value) :
      (Group.field keyword v target w).Calm rt ↔ True := Iff.rfl
  have hgiven (keyword target : String) (v : Option Value) :
      (∀ g ∈ givenGroup keyword target v, g.Calm rt) ↔ True :=
    iff_true_intro (calm_given keyword target v)
  have hbool (keyword target : String) (v : Option Bool) :
      (∀ g ∈ boolGroup keyword target v, g.Calm rt) ↔ True :=
    iff_true_intro (calm_bool keyword target v)
  have hsuccess (ok : Bool) : (∀ g ∈ successGroup ok, g.Calm rt) ↔ True :=
    iff_true_intro (calm_success ok)
  have hvalues : (∀ g ∈ plainValueGroups codec c, g.Calm rt) ↔ True := by
    refine iff_true_intro fun g hg => ?_
    refine calm_values hrt codec { values := c.values, valueRefs := c.valueRefs } g ?_
    unfold plainValueGroups at hg
    split at hg
    · cases hg
    · simp only [List.mem_cons, List.not_mem_nil, or_false] at hg
      rcases hg with rfl | rfl <;> simp [valueGroups]
  simp only [createGroups, settingGroups, sharedGroups, List.forall_mem_append,
    List.forall_mem_cons, List.not_mem_nil, false_implies, implies_true, and_true, true_and, intGroup, hfixed, hfield,
    hgiven, hbool, hsuccess, hvalues]
  rfl

end Calm

section Arguments

variable {rt : Runtime} {codec : Codec} {clock : ℤ} {c : CreateManyCall}

/-- The word before the items. -/
def CreateManyCall.marker (c : CreateManyCall) : String :=
  if c.extended then (if c.hasItemMaxActive then "ITEMS_EXT_V2" else "ITEMS_EXT") else "ITEMS"

/-- One row of the extended layouts. -/
def extendedRow (rt : Runtime) (codec : Codec) (c : CreateManyCall) (i : CreateItem) :
    List Value :=
  [Value.str i.id, orDash (if c.mixed then i.partitionKey.map PartitionKey.value else none),
      .bytes (codec i.payload)]++
    ((if c.hasItemMaxActive then [orDash (meantLimit rt i.maxActiveMs)] else [])++
      appendNamedCounts codec (mergeNamedMap c.values i.values)
        (mergeNamedMap c.valueRefs i.valueRefs))

/-- One row of the plain layout. -/
def plainRow (codec : Codec) (c : CreateManyCall) (i : CreateItem) : List Value :=
  if c.mixed then
    [.str i.id, (i.partitionKey.map PartitionKey.value).getD .none, .bytes (codec i.payload)]
  else [.str i.id, .bytes (codec i.payload)]

/-- What stands after the marker. -/
def afterMarker (rt : Runtime) (codec : Codec) (c : CreateManyCall) : List Value :=
  if c.extended then .int c.items.length::c.items.flatMap (extendedRow rt codec c)
  else c.items.flatMap (plainRow codec c)

theorem extendedItemArgs_ok {i : CreateItem} {row : List Value}
    (h : extendedItemArgs rt codec c i = .ok row) : row = extendedRow rt codec c i := by
  obtain ⟨limit, hl, h⟩ := except_bind_eq_ok h
  cases h
  unfold itemLimitArgs at hl
  unfold extendedRow
  split at hl
  · next hm =>
    obtain ⟨v, hv, hl⟩ := except_bind_eq_ok hl
    cases hl
    rw [if_pos hm, normalized_limit hv]
  · next hm =>
    cases hl
    rw [if_neg hm]

theorem plainItemArgs_ok {i : CreateItem} {row : List Value}
    (h : plainItemArgs codec c i = .ok row) : row = plainRow codec c i := by
  unfold plainItemArgs at h
  unfold plainRow
  split at h
  · next hm =>
    split at h
    · cases h
    · next key hk =>
      cases h
      rw [if_pos hm, hk]
      rfl
  · next hm =>
    cases h
    rw [if_neg hm]

theorem createItemsArgs_ok {items : List Value} (h : createItemsArgs rt codec c = .ok items) :
    items = written (plainValueGroups codec c)++word c.marker::afterMarker rt codec c := by
  unfold createItemsArgs at h
  unfold plainValueGroups CreateManyCall.marker afterMarker
  split at h
  · next he =>
    obtain ⟨rows, hr, h⟩ := except_bind_eq_ok h
    cases h
    obtain ⟨rfl, -⟩ := mapM_ok_map hr fun _ _ => extendedItemArgs_ok
    simp only [if_pos he, List.flatMap_def]
    rfl
  · next he =>
    obtain ⟨rows, hr, h⟩ := except_bind_eq_ok h
    cases h
    obtain ⟨rfl, -⟩ := mapM_ok_map hr fun _ _ => plainItemArgs_ok
    simp only [if_neg he, List.flatMap_def, written_cons, written_nil, flat_named,
      List.append_nil, List.append_assoc]

/-- A built call is its partition, its options, its marker and its rows; where the batch
has a key, no item has another. -/
theorem createManyArgs_ok {agrees : Matcher} {args : List Value}
    (h : createManyArgs rt codec clock c agrees = .ok args) :
    args.tail = request c.wire (createGroups rt codec clock c) c.marker
        (afterMarker rt codec c) ∧
      (c.partitionKey ≠ none → ∀ i ∈ c.items, i.partitionKey = none ∨
        i.partitionKey = c.partitionKey) := by
  obtain ⟨attributes, ha, h⟩ := except_bind_eq_ok h
  obtain ⟨stateMeta, hs, h⟩ := except_bind_eq_ok h
  have hattributes : attributes.getD Named.empty = c.sharedAttributes :=
    sharedMap_ok (by simpa [sharedCreateManyAttributes, List.map_map, Function.comp_def] using ha)
  have hmeta : stateMeta.getD Named.empty = c.sharedStateMeta :=
    sharedMap_ok (by simpa [sharedCreateManyStateMeta, List.map_map, Function.comp_def] using hs)
  split at h
  · cases h
  · next hkeys =>
    obtain ⟨priority, hp, h⟩ := except_bind_eq_ok h
    obtain ⟨limit, hl, h⟩ := except_bind_eq_ok h
    obtain ⟨items, hi, h⟩ := except_bind_eq_ok h
    cases h
    refine ⟨?_, fun hk i hm => ?_⟩
    · rw [appendPriority_ok hp, hattributes, hmeta, ← normalized_limit hl,
        createItemsArgs_ok hi]
      change _ = c.wire::(written (createGroups rt codec clock c)++
        word c.marker::afterMarker rt codec c)
      simp only [createGroups, settingGroups, sharedGroups, List.cons_append, List.nil_append,
        written_append, written_cons, flat_named, (written_given ..).1, written_bool,
        written_success, intGroup, List.append_assoc]
      rfl
    · by_contra hne
      rw [not_or] at hne
      refine hkeys ⟨hk, ?_⟩
      rw [List.any_eq_true]
      exact ⟨i, hm, by simp [hne.1, hne.2]⟩

end Arguments

end FerricStore.CreateManyArguments
