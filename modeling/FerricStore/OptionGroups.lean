import FerricStore.OptionEmissions

/-!
# The fields of a written option list

The client writes its options in groups: one option for a field, one for every
entry of a map, one for every name of a list. Each group fills one field of the
request, so an option list whose groups have fields of their own is read back as
the fields in the order they were written.
-/

set_option autoImplicit false

namespace FerricStore.FlowOptions
open Text BasicCommands FlowCommands FlowRouting

/-- The options that name a value, and the map each fills. -/
def namedFields : Dict String String :=
  [("VALUE", "values"), ("VALUE_REF", "value_refs"), ("ATTRIBUTE", "attributes"),
    ("ATTRIBUTE_MERGE", "attributes_merge"), ("STATE_META", "state_meta")]

/-- The options that are names, and the list each fills. -/
def nameFields : Dict String String :=
  [("DROP_VALUE", "drop_values"), ("OVERRIDE_VALUE", "override_values"),
    ("ATTRIBUTE_DELETE", "attributes_delete")]

/-- `result` is what the option map makes of `value`. -/
inductive Group where
  | field (keyword : String) (value : Value) (target : String) (result : Value)
  | named (keyword target : String) (entries : Dict Str Value)
  | names (keyword target : String) (items : List Str)

/-- A map of the request, left out when it is empty. -/
def mapField (target : String) (entries : Dict Str Value) : Payload :=
  if entries = [] then [] else [(target, .dict (entries.map fun e => (.str e.1, e.2)))]

/-- A list of the request, left out when it is empty. -/
def listField (target : String) (items : List Str) : Payload :=
  if items = [] then [] else [(target, .list (items.map .str))]

namespace Group

def emitted : Group → List Emitted
  | .field keyword value _ _ => [⟨keyword, [value]⟩]
  | .named keyword _ entries => entries.map fun e => ⟨keyword, [.str e.1, e.2]⟩
  | .names keyword _ items => items.map fun s => ⟨keyword, [.str s]⟩

def target : Group → String
  | .field _ _ target _ => target
  | .named _ target _ => target
  | .names _ target _ => target

def fields : Group → Payload
  | .field _ _ target result => [(target, result)]
  | .named _ target entries => mapField target entries
  | .names _ target items => listField target items

/-- The option map reads the option into its field. -/
def FieldReads (rt : Runtime) (keyword : String) (value : Value) (target : String)
    (result : Value) : Prop :=
  ∀ idx rest valid p,
    (keyword = "PAYLOAD" → payloadIsFlag rt valid (value::rest) = false) →
    target ∉ Dict.keys p → "states" ∉ Dict.keys p →
    optionStep rt false idx (lit keyword) (value::rest) valid p =
      .ok (Dict.set p target result, 2)

/-- What makes a group readable. -/
def Sound (rt : Runtime) : Group → Prop
  | .field keyword value target result =>
    (⟨keyword, [value]⟩ : Emitted).Fits ∧ FieldReads rt keyword value target result
  | .named keyword target entries =>
    (keyword, target) ∈ namedFields ∧ (Dict.keys entries).Nodup
  | .names keyword target _ => (keyword, target) ∈ nameFields

/-- No value named `PARTITIONS` stops the analysis. -/
def Calm (rt : Runtime) : Group → Prop
  | .named _ _ entries => ∀ e ∈ entries, token rt (.str e.1) = some "PARTITIONS" →
      ∃ c, nonNegativeInt rt e.2 = .ok c
  | _ => True

end Group

section Steps

theorem optionStep_named {rt : Runtime} {keyword target : String}
    (h : (keyword, target) ∈ namedFields) (idx : ℕ) (name : Str) (value : Value)
    (rest : List Value) (valid : List Bool) (p : Payload) :
    optionStep rt false idx (lit keyword) (.str name::value::rest) valid p =
      (itemField p target name value).map fun q => (q, 3) := by
  have hmap (x : Except Err Payload) :
      (x >>= fun q => (.ok (q, 3) : Except Err (Payload × ℕ))) = x.map fun q => (q, 3) := by
    cases x <;> rfl
  simp only [namedFields, List.mem_cons, Prod.mk.injEq, List.not_mem_nil, or_false] at h
  rcases h with ⟨rfl, rfl⟩ | ⟨rfl, rfl⟩ | ⟨rfl, rfl⟩ | ⟨rfl, rfl⟩ | ⟨rfl, rfl⟩ <;>
    simp [optionStep, stateOption, collectOption, valueOption, namedOption, lit_inj,
      requireNext, Runtime.text, Runtime.str, except_ok_bind, hmap]

theorem optionStep_names {rt : Runtime} {keyword target : String}
    (h : (keyword, target) ∈ nameFields) (idx : ℕ) (name : Str) (rest : List Value)
    (valid : List Bool) (p : Payload) :
    optionStep rt false idx (lit keyword) (.str name::rest) valid p =
      (appendField p target (.ok (.str name))).map fun q => (q, 2) := by
  have hmap (x : Except Err Payload) :
      (x >>= fun q => (.ok (q, 2) : Except Err (Payload × ℕ))) = x.map fun q => (q, 2) := by
    cases x <;> rfl
  simp only [nameFields, List.mem_cons, Prod.mk.injEq, List.not_mem_nil, or_false] at h
  rcases h with ⟨rfl, rfl⟩ | ⟨rfl, rfl⟩ | ⟨rfl, rfl⟩ <;>
    simp [optionStep, stateOption, collectOption, nameOption, lit_inj, requireNext,
      Runtime.text, Runtime.str, except_ok_bind, hmap]

theorem set_append_last (p : Payload) (target : String) (v w : Value)
    (h : target ∉ Dict.keys p) :
    Dict.set (p++[(target, v)]) target w = p++[(target, w)] := by
  induction p with
  | nil => simp [Dict.set]
  | cons e p ih =>
    rw [Dict.keys, List.map_cons, List.mem_cons, not_or] at h
    rw [List.cons_append, Dict.set, if_neg (Ne.symm h.1), ih h.2, List.cons_append]

theorem get?_append_last (p : Payload) (target : String) (v : Value)
    (h : target ∉ Dict.keys p) : Dict.get? (p++[(target, v)]) target = some v := by
  rw [Dict.get?_append, Dict.get?_eq_none_of_not_mem p target h]
  simp [Dict.get?]

theorem itemField_next (p : Payload) {target : String} (h : target ∉ Dict.keys p)
    (done : Dict Str Value) (name : Str) (value : Value) (hn : name ∉ Dict.keys done) :
    itemField (p++mapField target done) target name value =
      .ok (p++mapField target (done++[(name, value)])) := by
  unfold itemField
  by_cases hd : done = []
  · subst hd
    simp only [mapField, if_true, List.append_nil, List.nil_append, Dict.get?_eq_none_of_not_mem
      p target h]
    rw [if_neg (by simp)]
    simp [setItem, Dict.set, Dict.set_of_not_mem p target _ h, bind, Except.bind]
  · have hkeys : (Key.str name) ∉ Dict.keys (done.map fun e => (Key.str e.1, e.2)) := by
      intro hm
      simp only [Dict.keys, List.map_map, List.mem_map, Function.comp_apply, Key.str.injEq] at hm
      obtain ⟨e, he, hname⟩ := hm
      exact hn (hname ▸ List.mem_map_of_mem (f := Prod.fst) he)
    simp only [mapField, if_neg hd]
    rw [get?_append_last p target _ h, if_neg (by simp)]
    simp [setItem, Dict.set_of_not_mem _ _ _ hkeys, set_append_last p target _ _ h, bind,
      Except.bind]

theorem appendField_next (p : Payload) {target : String} (h : target ∉ Dict.keys p)
    (done : List Str) (name : Str) :
    appendField (p++listField target done) target (.ok (.str name)) =
      .ok (p++listField target (done++[name])) := by
  unfold appendField
  by_cases hd : done = []
  · subst hd
    simp only [listField, if_true, List.append_nil, List.nil_append,
      Dict.get?_eq_none_of_not_mem p target h]
    rw [if_neg (by simp)]
    simp [appendMethod, Dict.set_of_not_mem p target _ h, bind, Except.bind]
  · simp only [listField, if_neg hd]
    rw [get?_append_last p target _ h, if_neg (by simp)]
    simp [appendMethod, set_append_last p target _ _ h, bind, Except.bind]

theorem named_fits {keyword target : String} (h : (keyword, target) ∈ namedFields)
    (a b : Value) : (⟨keyword, [a, b]⟩ : Emitted).Fits := by
  simp only [namedFields, List.mem_cons, Prod.mk.injEq, List.not_mem_nil, or_false] at h
  have hknown : keyword ∈ flowOptionTokens := by
    rcases h with ⟨rfl, rfl⟩ | ⟨rfl, rfl⟩ | ⟨rfl, rfl⟩ | ⟨rfl, rfl⟩ | ⟨rfl, rfl⟩ <;>
      decide +kernel
  refine ⟨hknown, ?_, ?_, ?_, ?_, ?_⟩ <;>
    rcases h with ⟨rfl, rfl⟩ | ⟨rfl, rfl⟩ | ⟨rfl, rfl⟩ | ⟨rfl, rfl⟩ | ⟨rfl, rfl⟩ <;>
    simp [itemMarkers, fixedWidth, flowThreeValueOptions]

theorem names_fits {keyword target : String} (h : (keyword, target) ∈ nameFields)
    (a : Value) : (⟨keyword, [a]⟩ : Emitted).Fits := by
  simp only [nameFields, List.mem_cons, Prod.mk.injEq, List.not_mem_nil, or_false] at h
  have hknown : keyword ∈ flowOptionTokens := by
    rcases h with ⟨rfl, rfl⟩ | ⟨rfl, rfl⟩ | ⟨rfl, rfl⟩ <;> decide +kernel
  refine ⟨hknown, ?_, ?_, ?_, ?_, ?_⟩ <;>
    rcases h with ⟨rfl, rfl⟩ | ⟨rfl, rfl⟩ | ⟨rfl, rfl⟩ <;>
    simp [itemMarkers, fixedWidth, flowThreeValueOptions]

theorem Group.fits {rt : Runtime} {g : Group} (h : g.Sound rt) : ∀ e ∈ g.emitted, e.Fits := by
  intro e he
  cases g with
  | field keyword value target result =>
    rw [List.mem_singleton.mp he]
    exact h.1
  | named keyword target entries =>
    obtain ⟨x, -, rfl⟩ := List.mem_map.mp he
    exact named_fits h.1 _ _
  | names keyword target items =>
    obtain ⟨x, -, rfl⟩ := List.mem_map.mp he
    exact names_fits h _

end Steps

section Walks

variable {rt : Runtime}

theorem optionWalk_named (rt : Runtime) {keyword target : String} (hk : (keyword, target) ∈ namedFields)
    (p : Payload) (hp : target ∉ Dict.keys p) (entries done : Dict Str Value)
    (hn : (Dict.keys (done++entries)).Nodup) (idx : ℕ) (tail : List Value)
    (table : List Bool) :
    optionWalk rt false idx 0 (p++mapField target done)
        (flat (Group.named keyword target entries).emitted++tail) table =
      optionWalk rt false (idx+(flat (Group.named keyword target entries).emitted).length) 0
        (p++mapField target (done++entries)) tail
        (table.drop (flat (Group.named keyword target entries).emitted).length) := by
  induction entries generalizing done idx table with
  | nil => simp [Group.emitted, flat]
  | cons e entries ih =>
    obtain ⟨name, value⟩ := e
    have hname : name ∉ Dict.keys done := by
      intro hm
      rw [Dict.keys, List.map_append, List.nodup_append] at hn
      exact hn.2.2 name hm name (by simp) rfl
    have hdone : done++(name, value)::entries = (done++[(name, value)])++entries := by simp
    have hflat : flat (Group.named keyword target ((name, value)::entries)).emitted =
        (⟨keyword, [.str name, value]⟩ : Emitted).flat++
          flat (Group.named keyword target entries).emitted := rfl
    rw [hflat, List.append_assoc, optionWalk_emitted (named_fits hk _ _)
      (q := p++mapField target (done++[(name, value)])), ih _ (hdone ▸ hn), hdone]
    · simp [List.drop_drop, Nat.add_assoc]
    · change optionStep rt false idx (lit keyword) (.str name::value::_) table.tail _ = _
      rw [optionStep_named hk, itemField_next p hp done name value hname]
      rfl

theorem optionWalk_names (rt : Runtime) {keyword target : String} (hk : (keyword, target) ∈ nameFields)
    (p : Payload) (hp : target ∉ Dict.keys p) (items done : List Str) (idx : ℕ)
    (tail : List Value) (table : List Bool) :
    optionWalk rt false idx 0 (p++listField target done)
        (flat (Group.names keyword target items).emitted++tail) table =
      optionWalk rt false (idx+(flat (Group.names keyword target items).emitted).length) 0
        (p++listField target (done++items)) tail
        (table.drop (flat (Group.names keyword target items).emitted).length) := by
  induction items generalizing done idx table with
  | nil => simp [Group.emitted, flat]
  | cons name items ih =>
    have hdone : done++name::items = (done++[name])++items := by simp
    have hflat : flat (Group.names keyword target (name::items)).emitted =
        (⟨keyword, [.str name]⟩ : Emitted).flat++
          flat (Group.names keyword target items).emitted := rfl
    rw [hflat, List.append_assoc, optionWalk_emitted (names_fits hk _)
      (q := p++listField target (done++[name])), ih, hdone]
    · simp [List.drop_drop, Nat.add_assoc]
    · change optionStep rt false idx (lit keyword) (.str name::_) table.tail _ = _
      rw [optionStep_names hk, appendField_next p hp done name]
      rfl

/-- One group is read into its field. -/
theorem optionWalk_group {g : Group} (hg : g.Sound rt) (p : Payload)
    (hp : g.target ∉ Dict.keys p) (hstates : "states" ∉ Dict.keys p) (idx : ℕ)
    (tail : List Value) (table : List Bool)
    (hnext : suffix (table.drop (flat g.emitted).length) 0 = true) :
    optionWalk rt false idx 0 p (flat g.emitted++tail) table =
      optionWalk rt false (idx+(flat g.emitted).length) 0 (p++g.fields) tail
        (table.drop (flat g.emitted).length) := by
  cases g with
  | field keyword value target result =>
    obtain ⟨hfits, hreads⟩ := hg
    have hflat : flat (Group.field keyword value target result).emitted =
        (⟨keyword, [value]⟩ : Emitted).flat := by simp [Group.emitted, flat]
    have hlast : Dict.set p target result = p++(Group.field keyword value target result).fields :=
      Dict.set_of_not_mem p target result hp
    rw [hflat] at hnext ⊢
    rw [optionWalk_emitted hfits (q := p++(Group.field keyword value target result).fields)]
    change optionStep rt false idx (lit keyword) (value::tail) table.tail p = _
    rw [← hlast]
    refine hreads idx tail table.tail p (fun hpay => ?_) hp hstates
    refine payload_value (hfits.payload hpay value (by simp)) ?_
    rw [suffix_drop, List.drop_tail]
    exact hnext
  | named keyword target entries =>
    have hw := optionWalk_named rt hg.1 p hp entries [] (by simpa using hg.2) idx tail table
    simpa [mapField, Group.fields] using hw
  | names keyword target items =>
    have hw := optionWalk_names rt hg p hp items [] idx tail table
    simpa [listField, Group.fields] using hw

/-- The options of a list of groups. -/
def emittedAll (gs : List Group) : List Emitted := gs.flatMap Group.emitted

def fieldsAll (gs : List Group) : Payload := gs.flatMap Group.fields

theorem emittedAll_fits {gs : List Group} (h : ∀ g ∈ gs, g.Sound rt) :
    ∀ e ∈ emittedAll gs, e.Fits := by
  intro e he
  obtain ⟨g, hg, hm⟩ := List.mem_flatMap.mp he
  exact Group.fits (h g hg) e hm

theorem keys_fields (g : Group) : ∀ k ∈ Dict.keys g.fields, k = g.target := by
  intro k hk
  cases g with
  | field keyword value target result => simpa [Group.fields, Group.target, Dict.keys] using hk
  | named keyword target entries =>
    simp only [Group.fields, mapField] at hk
    split at hk
    · cases hk
    · simpa [Group.target, Dict.keys] using hk
  | names keyword target items =>
    simp only [Group.fields, listField] at hk
    split at hk
    · cases hk
    · simpa [Group.target, Dict.keys] using hk

/-- A written option list is read as the fields of its groups. -/
theorem optionWalk_groups {gs : List Group} (hg : ∀ g ∈ gs, g.Sound rt) (p : Payload)
    (hd : (gs.map Group.target).Nodup)
    (hp : ∀ g ∈ gs, g.target ∉ Dict.keys p ∧ g.target ≠ "states")
    (hstates : "states" ∉ Dict.keys p) (idx : ℕ) (tail : List Value) (table : List Bool)
    (hplan : flowOptionPlan rt (flat (emittedAll gs)++tail) = .ok table)
    (htail : suffix (table.drop (flat (emittedAll gs)).length) 0 = true) :
    optionWalk rt false idx 0 p (flat (emittedAll gs)++tail) table =
      optionWalk rt false (idx+(flat (emittedAll gs)).length) 0 (p++fieldsAll gs) tail
        (table.drop (flat (emittedAll gs)).length) := by
  induction gs generalizing p idx table with
  | nil => simp [emittedAll, fieldsAll, flat]
  | cons g gs ih =>
    rw [List.map_cons, List.nodup_cons] at hd
    have hcons : flat (emittedAll (g::gs)) = flat g.emitted++flat (emittedAll gs) :=
      flat_append g.emitted (emittedAll gs)
    have hrest : ∀ x ∈ gs, x.Sound rt := fun x hx => hg x (List.mem_cons_of_mem _ hx)
    rw [hcons] at hplan htail ⊢
    rw [List.append_assoc] at hplan ⊢
    have hnext := plan_append hplan
    have htail' : suffix ((table.drop (flat g.emitted).length).drop
        (flat (emittedAll gs)).length) 0 = true := by
      rw [List.drop_drop]
      simpa using htail
    obtain ⟨htarget, hne⟩ := hp g (by simp)
    have hkeys (k : String) (hk : k ∈ Dict.keys (p++g.fields)) :
        k ∈ Dict.keys p ∨ k = g.target := by
      rw [Dict.keys, List.map_append, List.mem_append] at hk
      exact hk.imp id (keys_fields g k)
    rw [optionWalk_group (hg g (by simp)) p htarget hstates idx _ table
      (emissions_valid (emittedAll_fits hrest) hnext htail'),
      ih hrest (p++g.fields) hd.2 ?_ ?_ _ _ hnext htail']
    · simp [fieldsAll, List.drop_drop, Nat.add_assoc]
    · intro x hx
      obtain ⟨hxp, hxs⟩ := hp x (List.mem_cons_of_mem _ hx)
      refine ⟨fun hk => ?_, hxs⟩
      rcases hkeys _ hk with hk | hk
      · exact hxp hk
      · exact hd.1 (hk ▸ List.mem_map_of_mem hx)
    · intro hk
      rcases hkeys _ hk with hk | hk
      · exact hstates hk
      · exact hne hk.symm

theorem optionMap_groups {gs : List Group} (hg : ∀ g ∈ gs, g.Sound rt)
    (hd : (gs.map Group.target).Nodup) (hs : "states" ∉ gs.map Group.target)
    (hquiet : Quiet rt (flat (emittedAll gs))) :
    optionMap rt false (flat (emittedAll gs)) = .ok (fieldsAll gs) := by
  obtain ⟨table, hplan⟩ := (plan_ok_iff rt _).mpr hquiet
  have hplan' : flowOptionPlan rt (flat (emittedAll gs)++[]) = .ok table := by simpa using hplan
  have hend : suffix (table.drop (flat (emittedAll gs)).length) 0 = true := by
    have hx : .ok [true] = Except.ok (table.drop (flat (emittedAll gs)).length) :=
      plan_append hplan'
    rw [← Except.ok.inj hx]
    rfl
  have hwalk := optionWalk_groups hg [] hd (fun g hm => ⟨by simp [Dict.keys], fun he =>
    hs (he ▸ List.mem_map_of_mem hm)⟩) (by simp [Dict.keys]) 0 [] table hplan' hend
  rw [List.append_nil] at hwalk
  rw [optionMap, hplan, except_ok_bind, hwalk]
  rfl

end Walks

section Calm

variable {rt : Runtime}

def Emitted.Calm (rt : Runtime) (e : Emitted) : Prop :=
  match e.args with
  | [name, value] => token rt name = some "PARTITIONS" → ∃ c, nonNegativeInt rt value = .ok c
  | _ => True

/-- The end of the arguments, or a word. -/
def StartsText (args : List Value) : Prop := args = [] ∨ ∃ s more, args = .str s::more

theorem startsText_flat (es : List Emitted) {tail : List Value} (h : StartsText tail) :
    StartsText (flat es++tail) := by
  cases es with
  | nil => simpa [flat] using h
  | cons e es => exact .inr ⟨lit e.keyword, _, rfl⟩

/-- What can stop the analysis is a value named `PARTITIONS`, or what follows the options. -/
theorem quiet_emissions (hrt : TextNumbers rt) {es : List Emitted} (hes : ∀ e ∈ es, e.Fits)
    {tail : List Value} (htail : StartsText tail) :
    Quiet rt (flat es++tail) ↔ (∀ e ∈ es, e.Calm rt) ∧ Quiet rt tail := by
  induction es with
  | nil => simp [flat]
  | cons e es ih =>
    have he := hes e (by simp)
    have hrest := startsText_flat es htail
    have hkey : token rt (.str (lit e.keyword)) ≠ some "PARTITIONS" := by
      rw [token_lit rt he.known]
      exact fun hx => he.counted (Option.some_inj.mp hx)
    rw [flat_cons, List.append_assoc, List.forall_mem_cons, and_assoc,
      ← ih fun x hx => hes x (List.mem_cons_of_mem _ hx)]
    have hw := he.width
    obtain ⟨keyword, args⟩ := e
    have hcases : (∃ a, args = [a]) ∨ ∃ a b, args = [a, b] := by
      simp only [fixedWidth] at hw
      split at hw
      · exact .inr (List.length_eq_two.mp (by omega))
      · exact .inl (List.length_eq_one_iff.mp (by omega))
    rcases hcases with ⟨a, rfl⟩ | ⟨a, b, rfl⟩
    · simp only [Emitted.flat, List.cons_append, List.nil_append, Quiet, hkey, false_implies,
        true_and, Emitted.Calm, and_iff_right_iff_imp]
      exact fun _ _ => nonNegativeInt_head hrt hrest
    · simp only [Emitted.flat, List.cons_append, List.nil_append, Quiet, hkey, false_implies,
        true_and, Emitted.Calm, List.headD_cons]
      refine and_congr_right fun _ => ?_
      rw [and_iff_right_iff_imp]
      exact fun _ _ => nonNegativeInt_head hrt hrest

theorem calm_emitted (g : Group) : (∀ e ∈ g.emitted, e.Calm rt) ↔ g.Calm rt := by
  cases g with
  | field keyword value target result => simp [Group.emitted, Emitted.Calm, Group.Calm]
  | named keyword target entries =>
    simp only [Group.emitted, List.forall_mem_map, Emitted.Calm, Group.Calm]
  | names keyword target items => simp [Group.emitted, Emitted.Calm, Group.Calm]

theorem quiet_groups (hrt : TextNumbers rt) {gs : List Group} (hg : ∀ g ∈ gs, g.Sound rt)
    {tail : List Value} (htail : StartsText tail) :
    Quiet rt (flat (emittedAll gs)++tail) ↔ (∀ g ∈ gs, g.Calm rt) ∧ Quiet rt tail := by
  rw [quiet_emissions hrt (emittedAll_fits hg) htail]
  refine and_congr_left fun _ => ?_
  simp only [emittedAll, List.mem_flatMap, forall_exists_index, and_imp]
  constructor
  · intro h g hm
    exact (calm_emitted g).mp fun e he => h e g hm he
  · intro h e g hm he
    exact (calm_emitted g).mpr (h g hm) e he

/-- The option map reads a written option list exactly when no value stops it. -/
theorem optionMap_iff (hrt : TextNumbers rt) {gs : List Group} (hg : ∀ g ∈ gs, g.Sound rt)
    (hd : (gs.map Group.target).Nodup) (hs : "states" ∉ gs.map Group.target) :
    optionMap rt false (flat (emittedAll gs)) = .ok (fieldsAll gs) ↔ ∀ g ∈ gs, g.Calm rt := by
  have hq := quiet_groups hrt hg (.inl rfl : StartsText [])
  rw [List.append_nil] at hq
  constructor
  · intro h
    obtain ⟨table, hplan, -⟩ := except_bind_eq_ok h
    exact (hq.mp ((plan_ok_iff rt _).mp ⟨table, hplan⟩)).1
  · intro h
    exact optionMap_groups hg hd hs (hq.mpr ⟨h, trivial⟩)

end Calm

end FerricStore.FlowOptions
