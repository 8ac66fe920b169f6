import FerricStore.CreateManyGroups
import FerricStore.ManyReadBack

/-!
# The items of creating many flows, as they are read

A counted part holds as many pairs as its count says, so an extended item ends where
the next one begins, whatever its names and values spell. What an extended item says
about its partition depends on the selector that the reader took from the partition
argument.
-/

set_option autoImplicit false

namespace FerricStore.CreateManyArguments
open Text BasicCommands FlowOptions FlowCommands FlowManyPayloads MutationArguments ManyArguments

section Counted

variable {rt : Runtime}

def pairArgs (entries : Dict Str Value) : List Value := entries.flatMap fun e => [.str e.1, e.2]

/-- The entries with their names as keys. -/
def keyed (entries : Dict Str Value) : Dict Key Value := entries.map fun e => (.str e.1, e.2)

def countedPairs (values refs : Dict Str Value) : List Value :=
  .int values.length::(pairArgs values++.int refs.length::pairArgs refs)

theorem length_pairArgs (entries : Dict Str Value) :
    (pairArgs entries).length = entries.length*2 := by
  induction entries with
  | nil => rfl
  | cons e entries ih =>
    rw [pairArgs, List.flatMap_cons, List.length_append]
    change 2+(pairArgs entries).length = _
    rw [ih, List.length_cons]
    omega

theorem consume_pairs (label : Str) (entries : Dict Str Value) (rest : List Value) :
    consumeCountedArguments label 2 (.int entries.length::(pairArgs entries++rest)) =
      .ok (pairArgs entries, rest) := by
  have hlen := length_pairArgs entries
  rw [consumeCountedArguments, requireNonnegativeCount, if_neg (by omega), except_ok_bind,
    Int.toNat_natCast, ← hlen, if_neg (by simp), List.take_left' rfl, List.drop_left' rfl]

theorem textPairs_pairs (rt : Runtime) (entries : Dict Str Value)
    (hn : (Dict.keys entries).Nodup) (d : Dict Key Value)
    (hd : ∀ e ∈ entries, Key.str e.1 ∉ Dict.keys d) :
    textPairs rt d (pairArgs entries) = .ok (d++keyed entries) := by
  induction entries generalizing d with
  | nil => simp [pairArgs, keyed, textPairs]
  | cons e entries ih =>
    obtain ⟨name, value⟩ := e
    rw [Dict.keys, List.map_cons, List.nodup_cons] at hn
    have hset : Dict.set d (.str name) value = d++[(Key.str name, value)] :=
      Dict.set_of_not_mem d _ value (hd (name, value) (by simp))
    have hpairs : pairArgs ((name, value)::entries) = .str name::value::pairArgs entries := rfl
    have htext : rt.text (.str name) = .ok name := rfl
    rw [hpairs, textPairs, htext, except_ok_bind, hset, ih hn.2]
    · simp [keyed]
    · intro x hx hm
      rw [Dict.keys, List.map_append, List.mem_append] at hm
      rcases hm with hm | hm
      · exact hd x (List.mem_cons_of_mem _ hx) hm
      · rw [List.map_cons, List.map_nil, List.mem_singleton, Key.str.injEq] at hm
        have hname : x.1 = name := hm
        have hmem := List.mem_map_of_mem (f := Prod.fst) hx
        rw [hname] at hmem
        exact hn.1 hmem

/-- Extended items are read one after the other. -/
theorem extendedChildren_rows {α : Type} (label : Str)
    (head : List Value → Option (List (Key × Value) × List Value)) (items : List α)
    (front : α → List Value) (fields : α → List (Key × Value)) (values refs : α → Named Value)
    (hhead : ∀ i ∈ items, ∀ rest, head (front i++rest) = some (fields i, rest)) :
    extendedChildren rt label head items.length
        (items.flatMap fun i => front i++countedPairs (values i).val (refs i).val) =
      .ok (items.map fun i => .dict (fields i++(pairsEntry "values" (keyed (values i).val)++
        pairsEntry "value_refs" (keyed (refs i).val)))) := by
  induction items with
  | nil => rfl
  | cons i items ih =>
    have htext (d : Named Value) : textPairs rt [] (pairArgs d.val) = .ok (keyed d.val) := by
      simpa using textPairs_pairs rt d.val d.property [] fun _ _ hm => by cases hm
    rw [List.length_cons, List.flatMap_cons, List.append_assoc, extendedChildren,
      hhead i (by simp), countedPairs, List.cons_append, List.append_assoc]
    simp only [consume_pairs, List.cons_append, except_ok_bind, htext,
      ih fun x hx => hhead x (List.mem_cons_of_mem _ hx), List.map_cons]

end Counted

section Extended

variable (rt : Runtime) (codec : Codec) (c : CreateManyCall)

def itemValues (i : CreateItem) : Named Value :=
  ⟨encoded codec (mergeNamedMap c.values i.values), by
    rw [encoded, keys_map _ fun v => Value.bytes (codec v)]
    exact (mergeNamedMap c.values i.values).property⟩

def itemRefs (i : CreateItem) : Named Value :=
  ⟨references (mergeNamedMap c.valueRefs i.valueRefs), by
    rw [references, keys_map _ Value.str]
    exact (mergeNamedMap c.valueRefs i.valueRefs).property⟩

/-- The partition that an extended row names. -/
def rowPartition (i : CreateItem) : Value :=
  orDash (if c.mixed then i.partitionKey.map PartitionKey.value else none)

/-- The part of an extended row before its counts. -/
def rowFront (i : CreateItem) : List Value :=
  [Value.str i.id, rowPartition c i, .bytes (codec i.payload)]++
    (if c.hasItemMaxActive then [orDash (meantLimit rt i.maxActiveMs)] else [])

theorem extendedRow_eq (i : CreateItem) :
    extendedRow rt codec c i =
      rowFront rt codec c i++countedPairs (itemValues codec c i).val (itemRefs c i).val := by
  simp [extendedRow, rowFront, rowPartition, appendNamedCounts, countedPairs, pairArgs,
    itemValues, itemRefs, encoded, references]

/-- The entries of an extended item before its values. -/
def rowEntries (mixed : Bool) (i : CreateItem) : List (Key × Value) :=
  [entry "id" (.str i.id), entry "payload" (.bytes (codec i.payload))]++
    (partitionEntry mixed (rowPartition c i)++
      ((meantLimit rt i.maxActiveMs).map (entry "max_active_ms")).toList)

def extendedItem (mixed : Bool) (i : CreateItem) : Value :=
  .dict (rowEntries rt codec c mixed i++
    (pairsEntry "values" (keyed (itemValues codec c i).val)++
      pairsEntry "value_refs" (keyed (itemRefs c i).val)))

/-- The parser that the marker selects. -/
def extendedParser (mixed : Bool) : ℕ → List Value → Except Err (List Value) :=
  if c.hasItemMaxActive then parseCreateItemsExtV2 rt mixed else parseCreateItemsExt rt mixed

variable {rt codec c}

theorem limit_entry (i : CreateItem) :
    optionalEntry "max_active_ms" (orDash (meantLimit rt i.maxActiveMs)) =
      ((meantLimit rt i.maxActiveMs).map (entry "max_active_ms")).toList := by
  cases h : meantLimit rt i.maxActiveMs with
  | none => rfl
  | some limit =>
    rcases limit_cases h with rfl | ⟨n, rfl⟩
    · decide
    · rfl

theorem limit_absent (h : c.hasItemMaxActive = false) {i : CreateItem} (hi : i ∈ c.items) :
    meantLimit rt i.maxActiveMs = none := by
  rw [CreateManyCall.hasItemMaxActive, List.any_eq_false] at h
  have hnone := h i hi
  cases hv : i.maxActiveMs with
  | none => rfl
  | _ => simp [hv, Value.isNone] at hnone

theorem length_countedPairs (values refs : Dict Str Value) :
    2 ≤ (countedPairs values refs).length := by
  simp [countedPairs]
  omega

theorem length_rows {α : Type} (row : α → List Value) (width : ℕ) (items : List α)
    (h : ∀ i ∈ items, width ≤ (row i).length) :
    items.length*width ≤ (items.flatMap row).length := by
  induction items with
  | nil => simp
  | cons i items ih =>
    have hi := h i (by simp)
    have hrest := ih fun x hx => h x (List.mem_cons_of_mem _ hx)
    rw [List.flatMap_cons, List.length_append, List.length_cons, Nat.succ_mul]
    omega

/-- The extended rows are read as the items they were written for. -/
theorem extended_read (mixed : Bool) :
    extendedParser rt c mixed c.items.length (c.items.flatMap (extendedRow rt codec c)) =
      .ok (c.items.map (extendedItem rt codec c mixed)) := by
  have hrows : (c.items.flatMap (extendedRow rt codec c)) = c.items.flatMap fun i =>
      rowFront rt codec c i++countedPairs (itemValues codec c i).val (itemRefs c i).val := by
    simp only [← extendedRow_eq]
  cases hm : c.hasItemMaxActive with
  | true =>
    have hlen := length_rows (extendedRow rt codec c) 6 c.items fun i _ => by
      have h2 := length_countedPairs (itemValues codec c i).val (itemRefs c i).val
      simp only [extendedRow_eq, rowFront, hm, if_true, List.length_append, List.length_cons,
        List.length_nil]
      omega
    rw [extendedParser, if_pos hm, parseCreateItemsExtV2, countedChildren, if_neg, hrows,
      extendedChildren_rows _ _ c.items (rowFront rt codec c) (rowEntries rt codec c mixed)]
    · rfl
    · intro i _ rest
      simp only [rowFront, hm, if_true, List.cons_append, List.nil_append, createHeadV2,
        rowEntries, limit_entry]
    · rw [Nat.not_lt, Nat.le_div_iff_mul_le (by decide)]
      exact hlen
  | false =>
    have hlen := length_rows (extendedRow rt codec c) 5 c.items fun i _ => by
      have h2 := length_countedPairs (itemValues codec c i).val (itemRefs c i).val
      simp only [extendedRow_eq, rowFront, hm, List.length_append, List.length_cons,
        List.length_nil]
      omega
    rw [extendedParser, hm, if_neg (by decide), parseCreateItemsExt, countedChildren, if_neg,
      hrows, extendedChildren_rows _ _ c.items (rowFront rt codec c)
        (rowEntries rt codec c mixed)]
    · rfl
    · intro i hi rest
      simp only [rowFront, hm, if_neg (by decide : ¬ false = true), List.cons_append,
        List.nil_append, List.append_nil, createHead, rowEntries, limit_absent hm hi,
        Option.map_none, Option.toList_none]
    · rw [Nat.not_lt, Nat.le_div_iff_mul_le (by decide)]
      exact hlen

end Extended

/-!
## Reading a call that creates many flows

The reader takes the partition argument for a selector when it spells one. Each layout
is read by its own parser; an item is read as it was meant exactly when its partition
is.
-/

section Reading

variable {rt : Runtime} {codec : Codec} {c : CreateManyCall}

def selectors : List Str := ["AUTO", "MIXED", "NONE"].map lit

/-- The partition that the reader gives the items which name none. -/
def batchPartition (c : CreateManyCall) (selector : Str) : Option Value :=
  if selector ∈ selectors then none else some c.wire

/-- The items after the marker, as the layout of the call is read. -/
def readItems (rt : Runtime) (codec : Codec) (c : CreateManyCall) (mixed : Bool) :
    Except Err (List Value) :=
  if c.extended then .ok (c.items.map (extendedItem rt codec c mixed))
  else parseCreateItems (c.items.flatMap (plainRow codec c)) mixed

theorem marker_mem (c : CreateManyCall) : c.marker ∈ itemMarkers := by
  unfold CreateManyCall.marker
  split
  · split <;> decide
  · decide

theorem createItems_counted (rt : Runtime) (wire : Value) (gs : List Group) {marker : String}
    (h : marker = "ITEMS_EXT_V2" ∨ marker = "ITEMS_EXT") (n : ℕ) (values : List Value)
    (mixed : Bool) :
    createItems rt (request wire gs marker (.int n::values)) (1+(flat (emittedAll gs)).length)
        mixed =
      if marker = "ITEMS_EXT_V2" then parseCreateItemsExtV2 rt mixed n values
      else parseCreateItemsExt rt mixed n values := by
  have hm : marker ∈ itemMarkers := by rcases h with rfl | rfl <;> decide
  have hdrop := request_drop wire gs marker (.int n::values)
  have hcount (label : String) : requireArg (request wire gs marker (.int n::values))
      (1+(flat (emittedAll gs)).length+1) label = .ok (.int n) := by
    have hget : (request wire gs marker (.int n::values))[
        1+(flat (emittedAll gs)).length+1]? = some (.int n) := by
      rw [← List.head?_drop, hdrop]
      rfl
    rw [requireArg, hget]
  have hrest : (request wire gs marker (.int n::values)).drop
      (1+(flat (emittedAll gs)).length+2) = values := by
    rw [show 1+(flat (emittedAll gs)).length+2 = 1+(flat (emittedAll gs)).length+1+1 by omega,
      ← List.drop_drop, hdrop]
    rfl
  have hnat (label : Str) : requireNonnegativeCount label (.int n) = .ok n := by
    rw [requireNonnegativeCount, if_neg (by omega), Int.toNat_natCast]
  unfold createItems
  rw [request_marker, commandToken_lit rt (marker_known hm)]
  rcases h with rfl | rfl <;>
    simp only [lit_inj, String.reduceEq, or_true, true_or, if_true, if_false, hcount, hrest,
      except_ok_bind, hnat]

theorem createItems_plain (rt : Runtime) (wire : Value) (gs : List Group) (values : List Value)
    (mixed : Bool) :
    createItems rt (request wire gs "ITEMS" values) (1+(flat (emittedAll gs)).length) mixed =
      parseCreateItems values mixed := by
  unfold createItems
  rw [request_marker, commandToken_lit rt (marker_known (by decide)), request_drop]
  simp only [lit_inj, String.reduceEq, or_self, if_false]

theorem createItems_request (rt : Runtime) (codec : Codec) (c : CreateManyCall)
    (gs : List Group) (mixed : Bool) :
    createItems rt (request c.wire gs c.marker (afterMarker rt codec c))
      (1+(flat (emittedAll gs)).length) mixed = readItems rt codec c mixed := by
  unfold CreateManyCall.marker afterMarker readItems
  by_cases he : c.extended = true
  · rw [if_pos he, if_pos he, if_pos he, ← extended_read mixed, extendedParser,
      createItems_counted rt c.wire gs (by split <;> simp)]
    split <;> simp
  · rw [if_neg he, if_neg he, if_neg he]
    exact createItems_plain rt c.wire gs _ mixed

/-- Reading a built call comes down to its options, its partition and its items. -/
theorem createPayload_request (hrt : TextNumbers rt) (clock : ℤ)
    (hplain : Quiet rt (afterMarker rt codec c)) (payload : Payload) :
    flowCreateManyPayload rt (request c.wire (createGroups rt codec clock c) c.marker
        (afterMarker rt codec c)) = .ok payload ↔
      (CountsSafely rt c.sharedAttributes.val ∧ CountsSafely rt c.sharedStateMeta.val) ∧
        ∃ s, rt.text c.wire = .ok s ∧
          ∃ items, readItems rt codec c (rt.upperText s = lit "MIXED") = .ok items ∧
            payload = Dict.set (if rt.upperText s ∈ selectors then
                fieldsAll (createGroups rt codec clock c)
              else Dict.set (fieldsAll (createGroups rt codec clock c)) "partition_key" c.wire)
                "items" (.list items) := by
  obtain ⟨hnodup, hstates⟩ := createGroups_targets rt codec clock c
  have hoptions (x : Str × Payload × ℕ) := manyOptions_request hrt
    (createGroups_sound codec clock c) hnodup hstates (marker_mem c) "FLOW.CREATE_MANY" c.wire
    hplain x
  have hitems := createItems_request rt codec c (createGroups rt codec clock c)
  rw [← calm_createGroups hrt codec clock c]
  constructor
  · intro h
    obtain ⟨⟨selector, options, itemToken⟩, ho, h⟩ := except_bind_eq_ok h
    obtain ⟨hcalm, s, hs, he⟩ := (hoptions _).mp ho
    cases he
    obtain ⟨items, hi, h⟩ := except_bind_eq_ok h
    rw [hitems] at hi
    cases h
    exact ⟨hcalm, s, hs, items, hi, rfl⟩
  · rintro ⟨hcalm, s, hs, items, hi, rfl⟩
    have ho := (hoptions _).mpr ⟨hcalm, s, hs, rfl⟩
    simp only [flowCreateManyPayload, ho, except_ok_bind, hitems, hi]
    rfl

end Reading

section Items

variable {rt : Runtime} {codec : Codec} {c : CreateManyCall}

/-- The partition that the reader gives an extended item. -/
def readPartition (c : CreateManyCall) (selector : Str) (i : CreateItem) : Option Value :=
  (if selector = lit "MIXED" then some (rowPartition c i)
    else if dash (rowPartition c i) then none else some (rowPartition c i)).or
      (batchPartition c selector)

def meantPartitionOf (c : CreateManyCall) (i : CreateItem) : Option Value :=
  (i.partitionKey.or c.partitionKey).map PartitionKey.value

theorem pairsEntry_keyed (name : String) (entries : Dict Str Value) :
    pairsEntry name (keyed entries) = ((mapValue entries).map (entry name)).toList := by
  cases entries with
  | nil => rfl
  | cons e entries => simp [pairsEntry, keyed, mapValue, entry]

/-- An extended item is read as it was meant exactly when its partition is. -/
theorem extendedItem_read {payload : Payload} {selector : Str}
    (hp : Dict.get? payload "partition_key" = batchPartition c selector)
    (hv : Dict.get? payload "values" = none) (hr : Dict.get? payload "value_refs" = none)
    (i : CreateItem) :
    createdItem payload (extendedItem rt codec c (selector = lit "MIXED") i) =
        some (meantItem rt codec c i) ↔
      readPartition c selector i = meantPartitionOf c i := by
  have hread : createdItem payload (extendedItem rt codec c (selector = lit "MIXED") i) =
      some { meantItem rt codec c i with partition := readPartition c selector i } := by
    simp only [createdItem, extendedItem, rowEntries, pairsEntry_keyed, hp, hv, hr,
      readPartition, partitionEntry, optionalEntry, decide_eq_true_eq]
    simp only [meantItem, itemValues, itemRefs]
    cases mapValue (encoded codec (mergeNamedMap c.values i.values)) <;>
      cases mapValue (references (mergeNamedMap c.valueRefs i.valueRefs)) <;>
      cases meantLimit rt i.maxActiveMs <;>
      split_ifs <;>
      simp [entry, Dict.get?, lit_inj]
  rw [hread, meantPartitionOf]
  constructor
  · intro h
    exact congrArg CreatedItem.partition (Option.some_inj.mp h)
  · intro h
    rw [h]
    rfl

/-- The key of the batch is no selector, and a batch without a key is uniform. -/
def KeyKept (c : CreateManyCall) (selector : Str) : Prop :=
  (c.partitionKey ≠ none → selector ∉ selectors) ∧
    (c.partitionKey = none → (∀ i ∈ c.items, i.partitionKey = none) ∨
      ∀ i ∈ c.items, i.partitionKey ≠ none)

theorem mixed_iff (h : c.partitionKey = none) :
    c.mixed = true ↔ ∃ i ∈ c.items, i.partitionKey ≠ none := by
  simp [CreateManyCall.mixed, h]

theorem not_mixed_of_key {k : PartitionKey} (h : c.partitionKey = some k) : c.mixed = false := by
  simp [CreateManyCall.mixed, h]

theorem not_mixed (h : c.partitionKey = none) (hm : c.mixed = false) :
    ∀ i ∈ c.items, i.partitionKey = none := by
  intro i hi
  by_contra hk
  rw [(mixed_iff h).mpr ⟨i, hi, hk⟩] at hm
  cases hm

/-- The selectors that the writer uses are what the reader takes them for. -/
theorem wire_selector (h : c.partitionKey = none) {s : Str} (hs : rt.text c.wire = .ok s) :
    rt.upperText s = if c.mixed then lit "MIXED" else lit "AUTO" := by
  unfold CreateManyCall.wire at hs
  split at hs
  · next hm =>
    cases hs
    rw [if_pos hm]
    exact upperText_mixed rt
  · next hm =>
    rw [h] at hs
    cases hs
    rw [if_neg hm]
    change rt.upperText (lit "AUTO") = _
    rw [Runtime.upperText, if_pos (by decide)]
    decide

/-- A key that spells a selector is not the placeholder. -/
theorem selector_key {k : PartitionKey} {s : Str} (hs : rt.text k.value = .ok s)
    (hm : rt.upperText s = lit "MIXED") : k.value ≠ word "-" := by
  intro hk
  rw [hk] at hs
  cases hs
  change rt.upperText (lit "-") = _ at hm
  rw [Runtime.upperText, if_pos (by decide)] at hm
  exact absurd hm (by decide)

end Items

end FerricStore.CreateManyArguments
