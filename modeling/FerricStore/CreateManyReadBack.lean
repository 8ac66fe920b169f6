import FerricStore.CreateManyRows

/-!
# Created flows are read back as they were meant

The reader takes the partition argument for a selector when it spells one. The items
of a call are read back unless the key of the batch spells a selector or is no text,
and unless items with and without a partition share a batch without a key.
-/

set_option autoImplicit false

namespace FerricStore.CreateManyArguments
open Text BasicCommands FlowOptions FlowCommands FlowManyPayloads MutationArguments ManyArguments

section Partitions

variable {rt : Runtime} {codec : Codec} {c : CreateManyCall}

/-- What the builder has checked about the keys of the items. -/
def KeysAgree (c : CreateManyCall) : Prop :=
  c.partitionKey ≠ none → ∀ i ∈ c.items, i.partitionKey = none ∨ i.partitionKey = c.partitionKey

theorem meant_of_key {k : PartitionKey} (hk : c.partitionKey = some k) (hkeys : KeysAgree c)
    {i : CreateItem} (hi : i ∈ c.items) : meantPartitionOf c i = some k.value := by
  rcases hkeys (by simp [hk]) i hi with h | h <;> simp [meantPartitionOf, h, hk]

theorem keyKept_of_key {k : PartitionKey} (hk : c.partitionKey = some k) (selector : Str) :
    KeyKept c selector ↔ selector ∉ selectors := by
  simp [KeyKept, hk]

theorem mixed_mem_selectors : lit "MIXED" ∈ selectors := List.mem_map_of_mem (by decide)

/-- Extended items keep their partitions exactly when the key does. -/
theorem extended_partitions (hne : c.items ≠ []) (hkeys : KeysAgree c) {s : Str}
    (hs : rt.text c.wire = .ok s) :
    (∀ i ∈ c.items, readPartition c (rt.upperText s) i = meantPartitionOf c i) ↔
      KeyKept c (rt.upperText s) := by
  cases hk : c.partitionKey with
  | some k =>
    have hm := not_mixed_of_key hk
    have hwire : c.wire = k.value := by simp [CreateManyCall.wire, hm, hk]
    have hrow (i : CreateItem) : rowPartition c i = word "-" := by
      simp [rowPartition, hm, orDash]
    have hdash : dash (word "-") = true := by decide
    rw [keyKept_of_key hk]
    constructor
    · intro h hsel
      obtain ⟨i, hi⟩ := List.exists_mem_of_ne_nil _ hne
      have hread := h i hi
      rw [meant_of_key hk hkeys hi, readPartition, batchPartition, if_pos hsel, Option.or_none,
        hrow, hdash] at hread
      split at hread
      · next hmixed => exact selector_key (hwire ▸ hs) hmixed (Option.some_inj.mp hread).symm
      · cases hread
    · intro hsel i hi
      have hmixed : rt.upperText s ≠ lit "MIXED" := fun he => hsel (he ▸ mixed_mem_selectors)
      rw [meant_of_key hk hkeys hi, readPartition, batchPartition, if_neg hsel, if_neg hmixed,
        hrow, hdash, if_pos rfl, Option.none_or, hwire]
  | none =>
    have hsel := wire_selector hk hs
    cases hm : c.mixed with
    | true =>
      rw [hm, if_pos rfl] at hsel
      obtain ⟨x, hx, hxk⟩ := (mixed_iff hk).mp hm
      have hread (i : CreateItem) : readPartition c (rt.upperText s) i = meantPartitionOf c i ↔
          i.partitionKey ≠ none := by
        cases hi : i.partitionKey <;>
          simp [readPartition, hsel, rowPartition, hm, orDash, meantPartitionOf, hi, hk]
      simp only [hread, KeyKept, hk, ne_eq, not_true_eq_false, false_implies, true_and,
        forall_const]
      exact ⟨.inr, fun h => h.resolve_left fun hall => hxk (hall x hx)⟩
    | false =>
      rw [hm, if_neg (by decide)] at hsel
      have hall := not_mixed hk hm
      refine iff_of_true (fun i hi => ?_) ⟨fun h => absurd hk h, fun _ => .inl hall⟩
      have hauto : lit "AUTO" ∈ selectors := List.mem_map_of_mem (by decide)
      have hdash : dash (word "-") = true := by decide
      have hrow : rowPartition c i = word "-" := by simp [rowPartition, hm, orDash]
      rw [readPartition, hsel, if_neg (by decide), batchPartition, if_pos hauto, hrow, hdash,
        if_pos rfl, meantPartitionOf, hall i hi, hk]
      rfl

theorem merged_plain (h : c.extended = false) {i : CreateItem} (hi : i ∈ c.items) :
    mergeNamedMap c.values i.values = c.values ∧
      mergeNamedMap c.valueRefs i.valueRefs = c.valueRefs := by
  simp only [CreateManyCall.extended, Bool.or_eq_false_iff] at h
  have hnone := List.any_eq_false.mp h.1.1 i hi
  simp only [Bool.or_eq_true, decide_eq_true_eq, not_or, not_not] at hnone
  constructor <;> apply Subtype.ext <;> simp [mergeNamedMap, hnone.1, hnone.2, Dict.update]

theorem keyed_plain (h : c.extended = false) (hm : c.mixed = true) {i : CreateItem}
    (hi : i ∈ c.items) : ∃ k, i.partitionKey = some k := by
  simp only [CreateManyCall.extended, Bool.or_eq_false_iff, hm, Bool.true_and] at h
  have hnone := List.any_eq_false.mp h.2 i hi
  exact Option.ne_none_iff_exists'.mp (by simpa using hnone)

theorem limit_plain (h : c.extended = false) {i : CreateItem} (hi : i ∈ c.items) :
    meantLimit rt i.maxActiveMs = none := by
  simp only [CreateManyCall.extended, Bool.or_eq_false_iff] at h
  exact limit_absent h.1.2 hi

/-- A plain item is read as it was meant exactly when its partition is. -/
theorem plainItem_read (h : c.extended = false) {payload : Payload} {selector : Str}
    (hp : Dict.get? payload "partition_key" = batchPartition c selector)
    (hv : Dict.get? payload "values" = mapValue (encoded codec c.values))
    (hr : Dict.get? payload "value_refs" = mapValue (references c.valueRefs))
    {i : CreateItem} (hi : i ∈ c.items) :
    createdItem payload (.list (plainRow codec c i)) = some (meantItem rt codec c i) ↔
      (if c.mixed then i.partitionKey.map PartitionKey.value else batchPartition c selector) =
        meantPartitionOf c i := by
  obtain ⟨hvalues, hrefs⟩ := merged_plain h hi
  have hlimit : meantLimit rt i.maxActiveMs = none := limit_plain h hi
  cases hm : c.mixed with
  | true =>
    obtain ⟨k, hk⟩ := keyed_plain h hm hi
    simp [plainRow, hm, createdItem, meantItem, hvalues, hrefs, hlimit, hv, hr, hk,
      meantPartitionOf]
  | false =>
    simp [plainRow, hm, createdItem, meantItem, hvalues, hrefs, hlimit, hv, hr, hp,
      meantPartitionOf]

theorem plainRow_length (codec : Codec) (c : CreateManyCall) :
    ∀ i ∈ c.items, (plainRow codec c i).length = if c.mixed then 3 else 2 := by
  intro i _
  cases hm : c.mixed <;> simp [plainRow, hm]

end Partitions

section Plain

variable {rt : Runtime} {codec : Codec} {c : CreateManyCall}

/-- Plain items of one width are read exactly when their partitions are. -/
theorem plain_aligned (h : c.extended = false) {payload : Payload} {selector : Str}
    (hp : Dict.get? payload "partition_key" = batchPartition c selector)
    (hv : Dict.get? payload "values" = mapValue (encoded codec c.values))
    (hr : Dict.get? payload "value_refs" = mapValue (references c.valueRefs))
    (hmixed : decide (selector = lit "MIXED") = c.mixed) :
    (∃ items, parseCreateItems (c.items.flatMap (plainRow codec c)) (selector = lit "MIXED") =
        .ok items ∧ items.mapM (createdItem payload) =
          some (c.items.map (meantItem rt codec c))) ↔
      ∀ i ∈ c.items, (if c.mixed then i.partitionKey.map PartitionKey.value
        else batchPartition c selector) = meantPartitionOf c i := by
  have hparse : parseCreateItems (c.items.flatMap (plainRow codec c)) (selector = lit "MIXED") =
      .ok (c.items.map fun i => .list (plainRow codec c i)) := by
    rw [parseCreateItems, hmixed, cut_flatMap _ (by split <;> decide) _ _ (plainRow_length codec c),
      except_ok_bind, List.map_map]
    rfl
  rw [hparse]
  simp only [Except.ok.injEq, exists_eq_left', mapM_map_some]
  exact forall₂_congr fun i hi => plainItem_read h hp hv hr hi

/-- Plain items keep their partitions exactly when the key does. -/
theorem plain_read (h : c.extended = false) (hne : c.items ≠ []) (hkeys : KeysAgree c) {s : Str}
    (hs : rt.text c.wire = .ok s) {payload : Payload}
    (hp : Dict.get? payload "partition_key" = batchPartition c (rt.upperText s))
    (hv : Dict.get? payload "values" = mapValue (encoded codec c.values))
    (hr : Dict.get? payload "value_refs" = mapValue (references c.valueRefs)) :
    (∃ items, parseCreateItems (c.items.flatMap (plainRow codec c))
        (rt.upperText s = lit "MIXED") = .ok items ∧ items.mapM (createdItem payload) =
          some (c.items.map (meantItem rt codec c))) ↔ KeyKept c (rt.upperText s) := by
  cases hk : c.partitionKey with
  | some k =>
    have hm := not_mixed_of_key hk
    have hwire : c.wire = k.value := by simp [CreateManyCall.wire, hm, hk]
    rw [keyKept_of_key hk]
    by_cases hmixed : rt.upperText s = lit "MIXED"
    · refine iff_of_false ?_ fun hsel => hsel (hmixed ▸ mixed_mem_selectors)
      rintro ⟨items, hparse, hread⟩
      obtain ⟨cells, hcut, hcells⟩ := except_bind_eq_ok hparse
      cases hcells
      have hcount := mapM_some_length hread
      have hlen := cut_length hcut
      rw [length_flatMap_rows _ _ _ (plainRow_length codec c), hm, decide_eq_true hmixed] at hlen
      simp only [List.length_map, if_true, if_neg (by decide : ¬ false = true)] at hcount hlen
      exact hne (List.length_eq_zero_iff.mp (by omega))
    · rw [plain_aligned h hp hv hr (by rw [hm, decide_eq_false hmixed]), hm]
      simp only [Bool.false_eq_true, if_false]
      constructor
      · intro hall hsel
        obtain ⟨i, hi⟩ := List.exists_mem_of_ne_nil _ hne
        have hread := hall i hi
        rw [meant_of_key hk hkeys hi, batchPartition, if_pos hsel] at hread
        cases hread
      · intro hsel i hi
        rw [meant_of_key hk hkeys hi, batchPartition, if_neg hsel, hwire]
  | none =>
    have hsel := wire_selector hk hs
    cases hm : c.mixed with
    | true =>
      rw [hm, if_pos rfl] at hsel
      rw [plain_aligned h hp hv hr (by rw [hm, hsel]; rfl), hm]
      simp only [if_true]
      refine iff_of_true (fun i _ => ?_) ⟨fun hn => absurd hk hn, fun _ => .inr fun i hi => ?_⟩
      · simp [meantPartitionOf, hk]
      · obtain ⟨k, hk'⟩ := keyed_plain h hm hi
        simp [hk']
    | false =>
      rw [hm, if_neg (by decide)] at hsel
      rw [plain_aligned h hp hv hr (by rw [hm, hsel]; decide), hm]
      simp only [Bool.false_eq_true, if_false]
      have hall := not_mixed hk hm
      refine iff_of_true (fun i hi => ?_) ⟨fun hn => absurd hk hn, fun _ => .inl hall⟩
      have hauto : lit "AUTO" ∈ selectors := List.mem_map_of_mem (by decide)
      rw [hsel, batchPartition, if_pos hauto, meantPartitionOf, hall i hi, hk]
      rfl

end Plain

section Main

variable {rt : Runtime} {codec : Codec} {c : CreateManyCall}

/-- No value after the marker stops the analysis. -/
theorem afterMarker_quiet (hrt : TextNumbers rt) (codec : Codec) (c : CreateManyCall) :
    Quiet rt (afterMarker rt codec c) := by
  have htext (s : Str) : ∃ n, nonNegativeInt rt (.str s) = .ok n :=
    nonNegativeInt_text hrt (.inl rfl)
  have hbytes (b : Bytes) : ∃ n, nonNegativeInt rt (.bytes b) = .ok n :=
    nonNegativeInt_text hrt (.inr ⟨b, rfl⟩)
  have hkey (k : PartitionKey) : ∃ n, nonNegativeInt rt k.value = .ok n := by
    cases k with
    | text s => exact htext s
    | bytes b => exact hbytes b
  have hlimit (v : Value) : ∃ n, nonNegativeInt rt (orDash (meantLimit rt v)) = .ok n := by
    cases h : meantLimit rt v with
    | none => exact htext _
    | some limit =>
      rcases limit_cases h with rfl | ⟨n, rfl⟩
      · exact htext _
      · exact nonNegativeInt_int rt n
  have hpartition (mixed : Bool) (k : Option PartitionKey) : ∃ n, nonNegativeInt rt
      (orDash (if mixed then k.map PartitionKey.value else none)) = .ok n := by
    cases mixed with
    | false => exact htext _
    | true =>
      cases k with
      | none => exact htext _
      | some k => exact hkey k
  have hvalues (values : Named Value) :
      ∀ v ∈ (encoded codec values).flatMap (fun e => [.str e.1, e.2]),
        ∃ n, nonNegativeInt rt v = .ok n := by
    intro v hv
    obtain ⟨e, he, hv⟩ := List.mem_flatMap.mp hv
    obtain ⟨x, -, rfl⟩ := List.mem_map.mp he
    simp only [List.mem_cons, List.not_mem_nil, or_false] at hv
    rcases hv with rfl | rfl
    · exact htext _
    · exact hbytes _
  have hrefs (refs : Named Str) : ∀ v ∈ (references refs).flatMap (fun e => [.str e.1, e.2]),
      ∃ n, nonNegativeInt rt v = .ok n := by
    intro v hv
    obtain ⟨e, he, hv⟩ := List.mem_flatMap.mp hv
    obtain ⟨x, -, rfl⟩ := List.mem_map.mp he
    simp only [List.mem_cons, List.not_mem_nil, or_false] at hv
    rcases hv with rfl | rfl
    · exact htext _
    · exact htext _
  have hextended (i : CreateItem) :
      ∀ v ∈ extendedRow rt codec c i, ∃ n, nonNegativeInt rt v = .ok n := by
    simp only [extendedRow, appendNamedCounts, List.forall_mem_append, List.forall_mem_cons,
      List.not_mem_nil, false_implies, implies_true, and_true, htext, hbytes, hpartition,
      nonNegativeInt_int]
    refine ⟨trivial, ?_, trivial, hvalues _, trivial, hrefs _⟩
    split
    · simpa using hlimit i.maxActiveMs
    · simp
  have hplain (i : CreateItem) :
      ∀ v ∈ plainRow codec c i, ∃ n, nonNegativeInt rt v = .ok n := by
    unfold plainRow
    cases i.partitionKey <;> split <;>
      simp only [Option.map_some, Option.map_none, Option.getD_some, Option.getD_none,
        List.forall_mem_cons, List.not_mem_nil, false_implies, implies_true, and_true, htext,
        hbytes, hkey]
    exact ⟨trivial, none, rfl⟩
  refine quiet_plain ?_
  unfold afterMarker
  split
  · rw [List.forall_mem_cons]
    refine ⟨nonNegativeInt_int rt _, fun v hv => ?_⟩
    obtain ⟨i, -, hv⟩ := List.mem_flatMap.mp hv
    exact hextended i v hv
  · intro v hv
    obtain ⟨i, -, hv⟩ := List.mem_flatMap.mp hv
    exact hplain i v hv

/-- When the items of a call survive the way through its arguments. -/
structure CreateReadable (rt : Runtime) (c : CreateManyCall) : Prop where
  attributes : CountsSafely rt c.sharedAttributes.val
  stateMeta : CountsSafely rt c.sharedStateMeta.val
  key : ∀ k, c.partitionKey = some k →
    ∃ s, rt.text k.value = .ok s ∧ rt.upperText s ∉ selectors
  uniform : c.partitionKey = none → (∀ i ∈ c.items, i.partitionKey = none) ∨
    ∀ i ∈ c.items, i.partitionKey ≠ none

/-- The items of a request are read with the other fields of it. -/
theorem createdItems_set (base : Payload) (items : List Value) :
    createdItems (Dict.set base "items" (.list items)) = items.mapM (createdItem base) := by
  have hget {field : String} (h : "items" ≠ field) :
      Dict.get? (Dict.set base "items" (.list items)) field = Dict.get? base field :=
    Dict.get?_set_ne _ _ _ _ h
  have hitem : createdItem (Dict.set base "items" (.list items)) = createdItem base := by
    funext v
    unfold createdItem
    rw [hget (by decide), hget (by decide), hget (by decide)]
  rw [createdItems, Dict.get?_set, if_pos rfl, hitem]

/-- The fields of a batch under the selector that the reader found. -/
def createFields (rt : Runtime) (codec : Codec) (clock : ℤ) (c : CreateManyCall)
    (selector : Str) : Payload :=
  if selector ∈ selectors then fieldsAll (createGroups rt codec clock c)
  else Dict.set (fieldsAll (createGroups rt codec clock c)) "partition_key" c.wire

theorem createFields_get (rt : Runtime) (codec : Codec) (clock : ℤ) (c : CreateManyCall)
    (selector : Str) :
    Dict.get? (createFields rt codec clock c selector) "partition_key" =
        batchPartition c selector ∧
      Dict.get? (createFields rt codec clock c selector) "values" =
        (if c.extended then none else mapValue (encoded codec c.values)) ∧
      Dict.get? (createFields rt codec clock c selector) "value_refs" =
        (if c.extended then none else mapValue (references c.valueRefs)) := by
  obtain ⟨hpartition, hvalues, hrefs⟩ := createFields_values rt codec clock c
  unfold createFields batchPartition
  split
  · exact ⟨hpartition, hvalues, hrefs⟩
  · rw [Dict.get?_set, if_pos rfl, Dict.get?_set_ne _ _ _ _ (by decide),
      Dict.get?_set_ne _ _ _ _ (by decide)]
    exact ⟨rfl, hvalues, hrefs⟩

/-- Either layout is read back exactly when the key of the batch is kept. -/
theorem readItems_iff (clock : ℤ) (hne : c.items ≠ []) (hkeys : KeysAgree c) {s : Str}
    (hs : rt.text c.wire = .ok s) :
    (∃ items, readItems rt codec c (rt.upperText s = lit "MIXED") = .ok items ∧
        items.mapM (createdItem (createFields rt codec clock c (rt.upperText s))) =
          some (c.items.map (meantItem rt codec c))) ↔ KeyKept c (rt.upperText s) := by
  obtain ⟨hp, hv, hr⟩ := createFields_get rt codec clock c (rt.upperText s)
  unfold readItems
  cases he : c.extended with
  | true =>
    rw [he, if_pos rfl] at hv hr
    simp only [if_true, Except.ok.injEq, exists_eq_left', mapM_map_some]
    rw [← extended_partitions hne hkeys hs]
    exact forall₂_congr fun i _ => extendedItem_read hp hv hr i
  | false =>
    rw [he, if_neg (by decide)] at hv hr
    simp only [Bool.false_eq_true, if_false]
    exact plain_read he hne hkeys hs hp hv hr

/-- The items of a built call are read back exactly when its key is no selector and a
batch without a key is uniform. -/
theorem create_many_read_back (rt : Runtime) (hrt : TextNumbers rt) (codec : Codec) (clock : ℤ)
    (agrees : Matcher) (c : CreateManyCall) (args : List Value)
    (hargs : createManyArgs rt codec clock c agrees = .ok args) (hitems : c.items ≠ []) :
    (∃ payload, flowCreateManyPayload rt args.tail = .ok payload ∧
        createdItems payload = some (c.items.map (meantItem rt codec c))) ↔
      CreateReadable rt c := by
  obtain ⟨htail, hkeys⟩ := createManyArgs_ok hargs
  have hpayload (payload : Payload) := createPayload_request hrt clock
    (afterMarker_quiet hrt codec c) payload
  rw [htail]
  constructor
  · rintro ⟨payload, hp, hread⟩
    obtain ⟨⟨ha, hm⟩, s, hs, items, hi, rfl⟩ := (hpayload payload).mp hp
    rw [createdItems_set] at hread
    obtain ⟨hkey, huniform⟩ := (readItems_iff clock hitems hkeys hs).mp ⟨items, hi, hread⟩
    refine ⟨ha, hm, fun k hk => ⟨s, ?_, hkey (by simp [hk])⟩, huniform⟩
    have hwire : c.wire = k.value := by simp [CreateManyCall.wire, not_mixed_of_key hk, hk]
    rw [← hwire, hs]
  · rintro ⟨ha, hm, hkey, huniform⟩
    have htext : ∃ s, rt.text c.wire = .ok s ∧ KeyKept c (rt.upperText s) := by
      cases hk : c.partitionKey with
      | some k =>
        obtain ⟨s, hs, hsel⟩ := hkey k hk
        have hwire : c.wire = k.value := by simp [CreateManyCall.wire, not_mixed_of_key hk, hk]
        exact ⟨s, hwire ▸ hs, (keyKept_of_key hk _).mpr hsel⟩
      | none =>
        unfold CreateManyCall.wire
        rw [hk]
        cases c.mixed with
        | true => exact ⟨lit "MIXED", rfl, fun h => absurd hk h, huniform⟩
        | false => exact ⟨lit "AUTO", rfl, fun h => absurd hk h, huniform⟩
    obtain ⟨s, hs, hkept⟩ := htext
    obtain ⟨items, hi, hread⟩ := (readItems_iff clock hitems hkeys hs).mpr hkept
    refine ⟨_, (hpayload _).mpr ⟨⟨ha, hm⟩, s, hs, items, hi, rfl⟩, ?_⟩
    rw [createdItems_set]
    exact hread

end Main

section Samples

def sampleItem (id : String) (key : Option PartitionKey) : CreateItem where
  id := lit id
  payload := .bytes [0x70]
  partitionKey := key

/-- Two flows, one with values of its own. -/
def sampleCreate (batch first second : Option PartitionKey) : CreateManyCall where
  partitionKey := batch
  items := [{ sampleItem "flow-1" first with
      values := ⟨[(lit "ITEMS", .bytes [0x76])], by simp [Dict.keys]⟩ },
    sampleItem "flow-2" second]
  type := lit "order"

def sampleMatcher : Matcher := fun _ _ => true

theorem sampleCreate_read_back :
    ∃ args, createManyArgs overflowing sampleCodec 5
        (sampleCreate (some (.text (lit "tenant"))) none none) sampleMatcher = .ok args ∧
      ∃ payload, flowCreateManyPayload overflowing args.tail = .ok payload ∧
        createdItems payload = some ((sampleCreate (some (.text (lit "tenant"))) none none).items.map
          (meantItem overflowing sampleCodec
            (sampleCreate (some (.text (lit "tenant"))) none none))) := by
  refine ⟨_, rfl, ?_⟩
  refine (create_many_read_back overflowing overflowing_textNumbers sampleCodec 5 sampleMatcher
    (sampleCreate (some (.text (lit "tenant"))) none none) _ rfl (by simp [sampleCreate])).mpr
    ⟨?_, ?_, ?_, ?_⟩
  · intro e he
    cases he
  · intro e he
    cases he
  · intro k hk
    cases hk
    exact ⟨lit "tenant", rfl, by decide⟩
  · intro h
    cases h

/-- Flows of the partition `auto` are read without a partition. -/
theorem auto_partition_lost :
    ∃ args, createManyArgs Runtime.ascii sampleCodec 5
        (sampleCreate (some (.text (lit "auto"))) none none) sampleMatcher = .ok args ∧
      ((flowCreateManyPayload Runtime.ascii args.tail).toOption.bind createdItems).map
        (List.map CreatedItem.partition) = some [none, none] := by
  refine ⟨_, rfl, ?_⟩
  decide +kernel

end Samples

end FerricStore.CreateManyArguments
