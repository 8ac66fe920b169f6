import FerricStore.ManyArguments
import FerricStore.ManyReading

/-!
# The options of mutations of many flows

The options that the builders write are groups with fields of their own, none of them
the partition or the items. What can stop reading them is an attribute or a state
metadata value under a name that spells `PARTITIONS`.
-/

set_option autoImplicit false

namespace FerricStore.ManyArguments
open Text BasicCommands FlowOptions FlowCommands FlowManyPayloads MutationArguments

section Groups

variable (codec : Codec) (clock : ℤ) (c : ManyCall)

def boolGroup (keyword target : String) : Option Bool → List Group
  | some b => [.field keyword (word (if b then "true" else "false")) target (.bool b)]
  | none => []

def successGroup (returnOkOnSuccess : Bool) : List Group :=
  if returnOkOnSuccess then
    [.field "RETURN" (word "OK_ON_SUCCESS") "return" (.str (lit "ok_on_success"))] else []

def attributeGroups (o : NamedOptions) : List Group :=
  [.named "ATTRIBUTE_MERGE" "attributes_merge" o.attributesMerge.val,
    .names "ATTRIBUTE_DELETE" "attributes_delete" o.attributesDelete]

def metaGroups (o : NamedOptions) : List Group :=
  [.named "STATE_META" "state_meta" o.stateMeta.val]

def valueGroups (o : NamedOptions) : List Group :=
  [.named "VALUE" "values" (encoded codec o.values),
    .named "VALUE_REF" "value_refs" (references o.valueRefs),
    .names "DROP_VALUE" "drop_values" o.dropValues,
    .names "OVERRIDE_VALUE" "override_values" o.overrideValues]

/-- The options of a call in groups. -/
def manyGroups : ManyKind → List Group
  | .complete =>
    encodedGroup codec "RESULT" "result" c.result++
      (encodedGroup codec "PAYLOAD" "payload" c.payload++(intGroup "TTL" "ttl_ms" c.ttlMs++
        (intGroup "NOW" "now_ms" (some (c.now clock))++
          (boolGroup "INDEPENDENT" "independent" c.independent++(attributeGroups c.options++
            (metaGroups c.options++(successGroup c.returnOkOnSuccess++
              valueGroups codec c.options)))))))
  | .completeJobs =>
    encodedGroup codec "RESULT" "result" c.result++
      (encodedGroup codec "PAYLOAD" "payload" c.payload++(intGroup "TTL" "ttl_ms" c.ttlMs++
        (intGroup "NOW" "now_ms" (some (c.now clock))++
          (boolGroup "INDEPENDENT" "independent" c.independent++
            boolGroup "TERMINAL_LOCAL_ONLY" "terminal_local_only" (some true)))))
  | .retry =>
    encodedGroup codec "ERROR" "error" c.error++
      (encodedGroup codec "PAYLOAD" "payload" c.payload++
        (intGroup "RUN_AT" "run_at_ms" c.runAtMs++
          (intGroup "NOW" "now_ms" (some (c.now clock))++
            (boolGroup "INDEPENDENT" "independent" c.independent++
              namedGroups codec c.options))))
  | .fail =>
    encodedGroup codec "ERROR" "error" c.error++
      (encodedGroup codec "PAYLOAD" "payload" c.payload++(intGroup "TTL" "ttl_ms" c.ttlMs++
        (intGroup "NOW" "now_ms" (some (c.now clock))++
          (boolGroup "INDEPENDENT" "independent" c.independent++namedGroups codec c.options))))
  | .transition =>
    encodedGroup codec "PAYLOAD" "payload" c.payload++
      (intGroup "RUN_AT" "run_at_ms" c.runAtMs++(intGroup "PRIORITY" "priority" c.priority++
        (intGroup "NOW" "now_ms" (some (c.now clock))++
          (boolGroup "INDEPENDENT" "independent" c.independent++namedGroups codec c.options))))
  | .cancel =>
    encodedGroup codec "REASON" "reason" c.reason++(intGroup "TTL" "ttl_ms" c.ttlMs++
      (intGroup "NOW" "now_ms" (some (c.now clock))++
        (boolGroup "INDEPENDENT" "independent" c.independent++(metaGroups c.options++
          valueGroups codec c.options))))

end Groups

section Written

theorem written_bool (keyword target : String) (v : Option Bool) :
    written (boolGroup keyword target v) = appendBool keyword v := by
  cases v <;> rfl

theorem written_success (ok : Bool) :
    written (successGroup ok) =
      append "RETURN" (if ok then some (word "OK_ON_SUCCESS") else none) := by
  cases ok <;> rfl

theorem appendAttributes_eq (o : NamedOptions) :
    appendAttributes o = appendEntries "ATTRIBUTE_MERGE" o.attributesMerge.val++
      appendNames "ATTRIBUTE_DELETE" o.attributesDelete := by
  unfold appendAttributes
  split
  · next h => simp [h.1, h.2, appendEntries, appendNames]
  · rfl

theorem written_attributes (o : NamedOptions) :
    written (attributeGroups o) = appendAttributes o := by
  simp only [attributeGroups, written_cons, written_nil, flat_named, flat_names,
    appendAttributes_eq, List.append_nil]

theorem written_meta (o : NamedOptions) : written (metaGroups o) = appendStateMeta o := by
  simp only [metaGroups, written_cons, written_nil, flat_named, appendStateMeta,
    List.append_nil]

theorem written_values (codec : Codec) (o : NamedOptions) :
    written (valueGroups codec o) = appendNamedValues codec o := by
  simp only [valueGroups, written_cons, written_nil, flat_named, flat_names, appendNamedValues,
    List.append_nil]

end Written

section Sound

variable {rt : Runtime}

theorem coerceBool_word (rt : Runtime) (b : Bool) :
    rt.coerceBool (word (if b then "true" else "false")) = .ok b := by
  cases b
  · simp only [word, Runtime.coerceBool, Runtime.coerceText, if_neg (by decide : ¬ false = true),
      lowerText_lit rt (by decide : isAscii (lit "false") = true)
        (by decide : _ = lit "false")]
    rfl
  · simp only [word, Runtime.coerceBool, Runtime.coerceText, if_true,
      lowerText_lit rt (by decide : isAscii (lit "true") = true) (by decide : _ = lit "true")]
    rfl

theorem flag_sound (rt : Runtime) {keyword target : String}
    (h : (keyword, target) ∈ [("INDEPENDENT", "independent"),
      ("TERMINAL_LOCAL_ONLY", "terminal_local_only"), ("IDEMPOTENT", "idempotent")]) (b : Bool) :
    (Group.field keyword (word (if b then "true" else "false")) target (.bool b)).Sound rt := by
  have hp : keyword ∈ flowOptionTokens ∧ keyword ∉ itemMarkers ∧ keyword ∉ ruledKeywords ∧
      keyword ∉ flowThreeValueOptions ∧ Dict.get? flowOptionFieldNames keyword = some target ∧
      target ≠ "max_active_ms" ∧ target ∈ boolFields := by
    simp only [List.mem_cons, Prod.mk.injEq, List.not_mem_nil, or_false] at h
    rcases h with ⟨rfl, rfl⟩ | ⟨rfl, rfl⟩ | ⟨rfl, rfl⟩ <;> decide +kernel
  obtain ⟨hknown, hmarker, hruled, hthree, hfield, hmax, hbool⟩ := hp
  refine ⟨one_fits hknown hmarker ?_ ?_ hthree ?_, ?_⟩
  · rintro rfl
    exact hruled (by decide)
  · rintro rfl
    exact hruled (by decide)
  · rintro rfl
    exact absurd (by decide) hruled
  · intro idx rest valid p _ _ _
    rw [optionStep_unruled hruled, fieldOption, mappedField_lit, hfield]
    simp only [requireNext, List.getElem?_cons_zero, except_ok_bind, fieldValue, if_neg hmax,
      if_pos hbool, coerceBool_word]
    rfl

theorem bool_sound {keyword target : String}
    (h : (keyword, target) ∈ [("INDEPENDENT", "independent"),
      ("TERMINAL_LOCAL_ONLY", "terminal_local_only"), ("IDEMPOTENT", "idempotent")])
    (v : Option Bool) : ∀ g ∈ boolGroup keyword target v, g.Sound rt := by
  intro g hg
  cases v with
  | none => cases hg
  | some b =>
    rw [List.mem_singleton.mp hg]
    exact flag_sound rt h b

theorem success_sound (ok : Bool) : ∀ g ∈ successGroup ok, g.Sound rt := by
  intro g hg
  unfold successGroup at hg
  split at hg
  · rw [List.mem_singleton.mp hg]
    exact return_sound rt (by decide) (by decide)
  · cases hg

theorem part_sound (codec : Codec) (o : NamedOptions) {gs : List Group}
    (h : gs ⊆ namedGroups codec o) : ∀ g ∈ gs, g.Sound rt :=
  fun g hg => named_sound codec o g (h hg)

theorem attribute_part (codec : Codec) (o : NamedOptions) :
    attributeGroups o ⊆ namedGroups codec o := by
  intro g hg
  simp only [attributeGroups, List.mem_cons, List.not_mem_nil, or_false] at hg
  rcases hg with rfl | rfl <;> simp [namedGroups]

theorem meta_part (codec : Codec) (o : NamedOptions) :
    metaGroups o ⊆ namedGroups codec o := by
  intro g hg
  rw [List.mem_singleton.mp hg]
  simp [namedGroups]

theorem value_part (codec : Codec) (o : NamedOptions) :
    valueGroups codec o ⊆ namedGroups codec o := by
  intro g hg
  simp only [valueGroups, List.mem_cons, List.not_mem_nil, or_false] at hg
  rcases hg with rfl | rfl | rfl | rfl <;> simp [namedGroups]

theorem manyGroups_sound (codec : Codec) (clock : ℤ) (c : ManyCall) (kind : ManyKind) :
    ∀ g ∈ manyGroups codec clock c kind, g.Sound rt := by
  cases kind <;> simp only [manyGroups, List.forall_mem_append, intGroup]
  · exact ⟨encoded_sound codec (by decide) _, encoded_sound codec (by decide) _,
      given_sound (by decide) _, given_sound (by decide) _, bool_sound (by decide) _,
      part_sound codec _ (attribute_part codec _), part_sound codec _ (meta_part codec _),
      success_sound _, part_sound codec _ (value_part codec _)⟩
  · exact ⟨encoded_sound codec (by decide) _, encoded_sound codec (by decide) _,
      given_sound (by decide) _, given_sound (by decide) _, bool_sound (by decide) _,
      bool_sound (by decide) _⟩
  · exact ⟨encoded_sound codec (by decide) _, encoded_sound codec (by decide) _,
      given_sound (by decide) _, given_sound (by decide) _, bool_sound (by decide) _,
      named_sound codec _⟩
  · exact ⟨encoded_sound codec (by decide) _, encoded_sound codec (by decide) _,
      given_sound (by decide) _, given_sound (by decide) _, bool_sound (by decide) _,
      named_sound codec _⟩
  · exact ⟨encoded_sound codec (by decide) _, given_sound (by decide) _,
      given_sound (by decide) _, given_sound (by decide) _, bool_sound (by decide) _,
      named_sound codec _⟩
  · exact ⟨encoded_sound codec (by decide) _, given_sound (by decide) _,
      given_sound (by decide) _, bool_sound (by decide) _,
      part_sound codec _ (meta_part codec _), part_sound codec _ (value_part codec _)⟩

end Sound

section Targets

/-- The fields that the options of a call can fill. -/
def manyTargets : ManyKind → List String
  | .complete => ["result"]++(["payload"]++(["ttl_ms"]++(["now_ms"]++(["independent"]++
      (["attributes_merge", "attributes_delete"]++(["state_meta"]++(["return"]++
        ["values", "value_refs", "drop_values", "override_values"])))))))
  | .completeJobs => ["result"]++(["payload"]++(["ttl_ms"]++(["now_ms"]++(["independent"]++
      ["terminal_local_only"]))))
  | .retry => ["error"]++(["payload"]++(["run_at_ms"]++(["now_ms"]++(["independent"]++
      namedTargets))))
  | .fail => ["error"]++(["payload"]++(["ttl_ms"]++(["now_ms"]++(["independent"]++
      namedTargets))))
  | .transition => ["payload"]++(["run_at_ms"]++(["priority"]++(["now_ms"]++(["independent"]++
      namedTargets))))
  | .cancel => ["reason"]++(["ttl_ms"]++(["now_ms"]++(["independent"]++(["state_meta"]++
      ["values", "value_refs", "drop_values", "override_values"]))))

theorem bool_target (keyword target : String) (v : Option Bool) :
    ((boolGroup keyword target v).map Group.target).Sublist [target] := by
  cases v with
  | none => exact List.nil_sublist _
  | some b => exact List.Sublist.refl _

theorem success_target (ok : Bool) :
    ((successGroup ok).map Group.target).Sublist ["return"] := by
  cases ok with
  | false => exact List.nil_sublist _
  | true => exact List.Sublist.refl _

theorem manyGroups_targets (codec : Codec) (clock : ℤ) (c : ManyCall) (kind : ManyKind) :
    ((manyGroups codec clock c kind).map Group.target).Sublist (manyTargets kind) := by
  cases kind <;> simp only [manyGroups, manyTargets, List.map_append, intGroup]
  · exact (encoded_target ..).append ((encoded_target ..).append ((given_target ..).append
      ((given_target ..).append ((bool_target ..).append ((List.Sublist.refl _).append
        ((List.Sublist.refl _).append ((success_target _).append (List.Sublist.refl _))))))))
  · exact (encoded_target ..).append ((encoded_target ..).append ((given_target ..).append
      ((given_target ..).append ((bool_target ..).append (bool_target ..)))))
  · exact (encoded_target ..).append ((encoded_target ..).append ((given_target ..).append
      ((given_target ..).append ((bool_target ..).append (List.Sublist.refl _)))))
  · exact (encoded_target ..).append ((encoded_target ..).append ((given_target ..).append
      ((given_target ..).append ((bool_target ..).append (List.Sublist.refl _)))))
  · exact (encoded_target ..).append ((given_target ..).append ((given_target ..).append
      ((given_target ..).append ((bool_target ..).append (List.Sublist.refl _)))))
  · exact (encoded_target ..).append ((given_target ..).append ((given_target ..).append
      ((bool_target ..).append ((List.Sublist.refl _).append (List.Sublist.refl _)))))

theorem manyTargets_distinct (kind : ManyKind) :
    (manyTargets kind).Nodup ∧ "states" ∉ manyTargets kind ∧
      "partition_key" ∉ manyTargets kind := by
  cases kind <;> decide

end Targets

section Calm

variable {rt : Runtime}

/-- The maps of a call whose values are written as they are. -/
def openMaps (c : ManyCall) : ManyKind → List (Dict Str Value)
  | .completeJobs => []
  | .cancel => [c.options.stateMeta.val]
  | _ => [c.options.attributesMerge.val, c.options.stateMeta.val]

theorem calm_bool (keyword target : String) (v : Option Bool) :
    ∀ g ∈ boolGroup keyword target v, g.Calm rt := by
  intro g hg
  cases v with
  | none => cases hg
  | some b =>
    rw [List.mem_singleton.mp hg]
    trivial

theorem calm_success (ok : Bool) : ∀ g ∈ successGroup ok, g.Calm rt := by
  intro g hg
  cases ok with
  | false => cases hg
  | true =>
    rw [List.mem_singleton.mp hg]
    trivial

theorem calm_values (hrt : TextNumbers rt) (codec : Codec) (o : NamedOptions) :
    ∀ g ∈ valueGroups codec o, g.Calm rt := by
  have hvalues : (Group.named "VALUE" "values" (encoded codec o.values)).Calm rt := by
    intro e he _
    obtain ⟨x, -, rfl⟩ := List.mem_map.mp he
    exact nonNegativeInt_text hrt (.inr ⟨_, rfl⟩)
  have hrefs : (Group.named "VALUE_REF" "value_refs" (references o.valueRefs)).Calm rt := by
    intro e he _
    obtain ⟨x, -, rfl⟩ := List.mem_map.mp he
    exact nonNegativeInt_text hrt (.inl rfl)
  intro g hg
  simp only [valueGroups, List.mem_cons, List.not_mem_nil, or_false] at hg
  rcases hg with rfl | rfl | rfl | rfl
  · exact hvalues
  · exact hrefs
  · trivial
  · trivial

theorem calm_manyGroups (hrt : TextNumbers rt) (codec : Codec) (clock : ℤ) (c : ManyCall)
    (kind : ManyKind) :
    (∀ g ∈ manyGroups codec clock c kind, g.Calm rt) ↔
      ∀ d ∈ openMaps c kind, CountsSafely rt d := by
  have hgiven (keyword target : String) (v : Option Value) :
      (∀ g ∈ givenGroup keyword target v, g.Calm rt) ↔ True :=
    iff_true_intro (calm_given keyword target v)
  have hencoded (keyword target : String) (v : Value) :
      (∀ g ∈ encodedGroup codec keyword target v, g.Calm rt) ↔ True :=
    iff_true_intro (calm_encoded codec keyword target v)
  have hbool (keyword target : String) (v : Option Bool) :
      (∀ g ∈ boolGroup keyword target v, g.Calm rt) ↔ True :=
    iff_true_intro (calm_bool keyword target v)
  have hsuccess (ok : Bool) : (∀ g ∈ successGroup ok, g.Calm rt) ↔ True :=
    iff_true_intro (calm_success ok)
  have hvalues : (∀ g ∈ valueGroups codec c.options, g.Calm rt) ↔ True :=
    iff_true_intro (calm_values hrt codec c.options)
  have hattributes : (∀ g ∈ attributeGroups c.options, g.Calm rt) ↔
      CountsSafely rt c.options.attributesMerge.val := by
    simp only [attributeGroups, List.forall_mem_cons, List.not_mem_nil, false_implies,
      implies_true, and_true, Group.Calm, CountsSafely]
  have hmeta : (∀ g ∈ metaGroups c.options, g.Calm rt) ↔
      CountsSafely rt c.options.stateMeta.val := by
    simp only [metaGroups, List.forall_mem_cons, List.not_mem_nil, false_implies, implies_true,
      and_true, Group.Calm, CountsSafely]
  cases kind <;>
    simp only [manyGroups, openMaps, List.forall_mem_append, List.forall_mem_cons,
      List.not_mem_nil, false_implies, implies_true, and_true, true_and, intGroup, hgiven,
      hencoded, hbool, hsuccess, hvalues, hattributes, hmeta, calm_named hrt]

end Calm

end FerricStore.ManyArguments
