import FerricStore.ManyRows

/-!
# Items of many flows are read back as they were written

The width of a row that the reader uses follows from the partition argument. It cuts
the rows where the builder joined them unless the key of the batch spells the word for
a mixed batch; and a lease token that is the placeholder is dropped.
-/

set_option autoImplicit false

namespace FerricStore.ManyArguments
open Text BasicCommands FlowOptions FlowCommands FlowManyPayloads MutationArguments

section Reading

variable {rt : Runtime}

def kindName : ManyKind → String
  | .complete | .completeJobs => "FLOW.COMPLETE_MANY"
  | .retry => "FLOW.RETRY_MANY"
  | .fail => "FLOW.FAIL_MANY"
  | .transition => "FLOW.TRANSITION_MANY"
  | .cancel => "FLOW.CANCEL_MANY"

def widthMessage : ManyKind → String
  | .transition | .cancel => "FLOW.*_MANY ITEMS has wrong fenced item width"
  | _ => "FLOW.*_MANY ITEMS has wrong claimed item width"

/-- The readers in one form: the options, the rows, and the items made of them. -/
theorem readMany_ok {kind : ManyKind} {args : List Value} {payload : Payload} :
    readMany rt kind args = .ok payload ↔
      ∃ selector options itemToken cells,
        manyOptions rt (kindName kind) (readArgs kind args) =
          .ok (selector, options, itemToken) ∧
        cut (rowWidth kind (selector = lit "MIXED")) (widthMessage kind)
          ((readArgs kind args).drop (itemToken+1)) = .ok cells ∧
        payload = Dict.set (batchFields (selector = lit "MIXED") (readArgs kind args) options)
          "items" (.list (cells.map (rowItem kind (selector = lit "MIXED")))) := by
  have hclaimed (name : String) (args : List Value) :
      flowClaimedManyPayload rt name args = .ok payload ↔
        ∃ selector options itemToken cells,
          manyOptions rt name args = .ok (selector, options, itemToken) ∧
          cut (if selector = lit "MIXED" then 4 else 3)
            "FLOW.*_MANY ITEMS has wrong claimed item width" (args.drop (itemToken+1)) =
              .ok cells ∧
          payload = Dict.set (batchFields (selector = lit "MIXED") args options) "items"
            (.list (cells.map .list)) := by
    constructor
    · intro h
      obtain ⟨⟨selector, options, itemToken⟩, ho, h⟩ := except_bind_eq_ok h
      obtain ⟨items, hi, h⟩ := except_bind_eq_ok h
      obtain ⟨cells, hc, hi⟩ := except_bind_eq_ok hi
      cases hi
      cases h
      exact ⟨selector, options, itemToken, cells, ho, by simpa using hc, rfl⟩
    · rintro ⟨selector, options, itemToken, cells, ho, hc, rfl⟩
      simp only [flowClaimedManyPayload, ho, except_ok_bind, parseClaimedItems,
        decide_eq_true_eq, hc]
  have hfenced (name : String) (args : List Value) (lease : Bool) :
      flowFencedManyPayload rt name args lease = .ok payload ↔
        ∃ selector options itemToken cells,
          manyOptions rt name args = .ok (selector, options, itemToken) ∧
          cut (if lease then (if selector = lit "MIXED" then 4 else 3)
              else (if selector = lit "MIXED" then 3 else 2))
            "FLOW.*_MANY ITEMS has wrong fenced item width" (args.drop (itemToken+1)) =
              .ok cells ∧
          payload = Dict.set (batchFields (selector = lit "MIXED") args options) "items"
            (.list (cells.map (fencedItem (selector = lit "MIXED") lease))) := by
    constructor
    · intro h
      obtain ⟨⟨selector, options, itemToken⟩, ho, h⟩ := except_bind_eq_ok h
      obtain ⟨items, hi, h⟩ := except_bind_eq_ok h
      obtain ⟨cells, hc, hi⟩ := except_bind_eq_ok hi
      cases hi
      cases h
      exact ⟨selector, options, itemToken, cells, ho, by simpa using hc, rfl⟩
    · rintro ⟨selector, options, itemToken, cells, ho, hc, rfl⟩
      simp only [flowFencedManyPayload, ho, except_ok_bind, parseFencedItems,
        decide_eq_true_eq, hc]
  cases kind <;>
    simp only [readMany, hclaimed, hfenced, kindName, widthMessage, readArgs, rowWidth, rowItem,
      reduceCtorEq, if_true, if_false, decide_eq_true_eq]

/-- The items of a request that was made of rows. -/
theorem itemsOf_rows {options : Payload} (h : Dict.get? options "partition_key" = none)
    (mixed : Bool) (wire : Value) (args items : List Value) :
    itemsOf (Dict.set (batchFields mixed (wire::args) options) "items" (.list items)) =
      items.mapM (itemOf (if mixed then none else some wire)) := by
  have hkey : Dict.get? (Dict.set (batchFields mixed (wire::args) options) "items"
      (.list items)) "partition_key" = if mixed then none else some wire := by
    rw [Dict.get?_set_ne _ _ _ _ (by decide)]
    cases mixed with
    | true => exact h
    | false => exact (Dict.get?_set _ _ _ _).trans (if_pos rfl)
  rw [itemsOf, Dict.get?_set, if_pos rfl, hkey]

end Reading

section Main

variable {rt : Runtime}

theorem mapM_map_some {α β γ : Type} {f : β → Option γ} {g : α → β} {h : α → γ} (xs : List α) :
    (xs.map g).mapM f = some (xs.map h) ↔ ∀ x ∈ xs, f (g x) = some (h x) := by
  induction xs with
  | nil => simp
  | cons x xs ih =>
    rw [List.forall_mem_cons, ← ih, List.map_cons, List.mapM_cons, List.map_cons]
    cases hx : f (g x) with
    | none => simp
    | some y => cases (xs.map g).mapM f <;> simp

theorem mapM_some_length {α β : Type} {f : α → Option β} {xs : List α} {ys : List β}
    (h : xs.mapM f = some ys) : ys.length = xs.length := by
  induction xs generalizing ys with
  | nil =>
    cases h
    rfl
  | cons x xs ih =>
    rw [List.mapM_cons] at h
    obtain ⟨y, -, h⟩ := Option.bind_eq_some_iff.mp h
    obtain ⟨zs, hz, h⟩ := Option.bind_eq_some_iff.mp h
    cases h
    simp [ih hz]

theorem rowWidth_pos (kind : ManyKind) (mixed : Bool) : 0 < rowWidth kind mixed := by
  cases kind <;> cases mixed <;> decide

/-- Rows that the reader cuts at the width they were written with. -/
theorem aligned_read {c : ManyCall} {kind : ManyKind} {items : List Value}
    (h : itemArgs c kind = .ok items) (mixed : Bool)
    (hm : mixed = (batchKey c kind).isNone) :
    (∃ cells, cut (rowWidth kind mixed) (widthMessage kind) ((rows c kind).flatMap Prod.fst) =
        .ok cells ∧ (cells.map (rowItem kind mixed)).mapM (itemOf (if mixed then none
          else some (wirePartition (batchKey c kind)))) = some (meantItems c kind)) ↔
      KeepsLeases c kind := by
  have hbatch : (if mixed then none else some (wirePartition (batchKey c kind))) =
      (batchKey c kind).map PartitionKey.value := by
    rw [hm]
    cases batchKey c kind <;> rfl
  subst hm
  rw [hbatch, cut_flatMap Prod.fst (rowWidth_pos kind _) _ _ (rows_width c kind), ← rows_read h,
    ← rows_meant, ← mapM_map_some (rows c kind)]
  simp [Function.comp_def]

/-- Rows that the reader cuts too wide are not the items of the call. -/
theorem wide_read {c : ManyCall} {kind : ManyKind} {k : PartitionKey}
    (hk : batchKey c kind = some k) (batch : Option Value) :
    (∃ cells, cut (rowWidth kind true) (widthMessage kind) ((rows c kind).flatMap Prod.fst) =
        .ok cells ∧ (cells.map (rowItem kind true)).mapM (itemOf batch) =
          some (meantItems c kind)) ↔ meantItems c kind = [] := by
  have hlen := length_flatMap_rows Prod.fst _ _ (rows_width c kind)
  have hmeant : (rows c kind).length = (meantItems c kind).length := by
    rw [← rows_meant, List.length_map]
  constructor
  · rintro ⟨cells, hcut, hread⟩
    have hcells := cut_length hcut
    have hcount := mapM_some_length hread
    rw [List.length_map] at hcount
    rw [hlen, hmeant, hcount, hk] at hcells
    have hwider : rowWidth kind true = rowWidth kind (some k).isNone+1 := by
      cases kind <;> rfl
    rw [hwider, Nat.mul_succ, Nat.add_eq_left] at hcells
    exact List.length_eq_zero_iff.mp (hcount.trans hcells)
  · intro hnil
    have hrows : rows c kind = [] := by
      rw [hnil, List.length_nil] at hmeant
      exact List.length_eq_zero_iff.mp hmeant
    refine ⟨[], ?_, by rw [hnil]; rfl⟩
    rw [hrows]
    exact cut_flatMap Prod.fst (rowWidth_pos kind true) (widthMessage kind) [] (by simp)

/-- When the items of a call survive the way through its arguments. -/
structure Readable (rt : Runtime) (c : ManyCall) (kind : ManyKind) : Prop where
  counts : ∀ d ∈ openMaps c kind, CountsSafely rt d
  key : ∀ k, batchKey c kind = some k → ∃ s, rt.text k.value = .ok s ∧
    (meantItems c kind = [] ∨ rt.upperText s ≠ lit "MIXED")
  leases : KeepsLeases c kind

theorem upperText_mixed (rt : Runtime) : rt.upperText (lit "MIXED") = lit "MIXED" := by
  rw [Runtime.upperText, if_pos (by decide)]
  decide

/-- Reading an accepted call comes down to its options, its partition and its rows. -/
theorem readMany_rows (hrt : TextNumbers rt) {codec : Codec} {clock : ℤ} {c : ManyCall}
    {kind : ManyKind} {args items : List Value} (hitems : itemArgs c kind = .ok items)
    (hread : readArgs kind args =
      wirePartition (batchKey c kind)::(written (manyGroups codec clock c kind)++items)) :
    (∃ payload, readMany rt kind args = .ok payload ∧
        itemsOf payload = some (meantItems c kind)) ↔
      (∀ d ∈ openMaps c kind, CountsSafely rt d) ∧
        ∃ s, rt.text (wirePartition (batchKey c kind)) = .ok s ∧
          ∃ cells, cut (rowWidth kind (rt.upperText s = lit "MIXED")) (widthMessage kind)
              ((rows c kind).flatMap Prod.fst) = .ok cells ∧
            (cells.map (rowItem kind (rt.upperText s = lit "MIXED"))).mapM (itemOf
              (if decide (rt.upperText s = lit "MIXED") = true then none
                else some (wirePartition (batchKey c kind)))) = some (meantItems c kind) := by
  rw [itemArgs_rows hitems] at hread
  have hrequest : readArgs kind args = request (wirePartition (batchKey c kind))
      (manyGroups codec clock c kind) "ITEMS" ((rows c kind).flatMap Prod.fst) := hread
  obtain ⟨hnodup, hstates, hpartition⟩ := manyTargets_distinct kind
  have hsub := manyGroups_targets codec clock c kind
  have hoptions (x : Str × Payload × ℕ) := manyOptions_request hrt
    (manyGroups_sound codec clock c kind) (hnodup.sublist hsub)
    (fun hm => hstates (hsub.subset hm)) (by decide : "ITEMS" ∈ itemMarkers) (kindName kind)
    (wirePartition (batchKey c kind)) (quiet_plain (rows_plain hrt c kind)) x
  have hkey : Dict.get? (fieldsAll (manyGroups codec clock c kind)) "partition_key" = none :=
    absent_field fun hm => hpartition (hsub.subset hm)
  have hcalm := calm_manyGroups hrt codec clock c kind
  constructor
  · rintro ⟨payload, hpayload, hitemsOf⟩
    obtain ⟨selector, options, itemToken, cells, ho, hcut, rfl⟩ := readMany_ok.mp hpayload
    rw [hrequest] at ho hcut
    obtain ⟨hc, s, hs, he⟩ := (hoptions _).mp ho
    cases he
    rw [request_drop] at hcut
    refine ⟨hcalm.mp hc, s, hs, cells, hcut, ?_⟩
    rw [hrequest, request, itemsOf_rows hkey] at hitemsOf
    exact hitemsOf
  · rintro ⟨hc, s, hs, cells, hcut, hmeant⟩
    refine ⟨_, readMany_ok.mpr ⟨rt.upperText s, fieldsAll (manyGroups codec clock c kind),
      1+(flat (emittedAll (manyGroups codec clock c kind))).length, cells, ?_, ?_, rfl⟩, ?_⟩
    · rw [hrequest]
      exact (hoptions _).mpr ⟨hcalm.mpr hc, s, hs, rfl⟩
    · rw [hrequest, request_drop]
      exact hcut
    · rw [hrequest, request, itemsOf_rows hkey]
      exact hmeant

/-- The items of an accepted call are read back exactly when its partition key and its
lease tokens are not taken for the words of the format. -/
theorem many_read_back (rt : Runtime) (hrt : TextNumbers rt) (codec : Codec) (clock : ℤ)
    (c : ManyCall) (kind : ManyKind) (args : List Value)
    (hargs : manyArgs codec clock c kind = .ok args) :
    (∃ payload, readMany rt kind args.tail = .ok payload ∧
        itemsOf payload = some (meantItems c kind)) ↔ Readable rt c kind := by
  obtain ⟨items, hitems, hread⟩ := manyArgs_ok hargs
  rw [readMany_rows hrt hitems hread]
  cases hk : batchKey c kind with
  | none =>
    have htext : rt.text (wirePartition none) = .ok (lit "MIXED") := rfl
    have hmixed : decide (rt.upperText (lit "MIXED") = lit "MIXED") = true := by
      rw [upperText_mixed]
      rfl
    have haligned := aligned_read hitems true (by rw [hk]; rfl)
    rw [hk] at haligned
    constructor
    · rintro ⟨hcounts, s, hs, hcells⟩
      rw [htext] at hs
      cases hs
      rw [hmixed] at hcells
      exact ⟨hcounts, fun k hk' => absurd (hk.symm.trans hk') (by simp), haligned.mp hcells⟩
    · rintro ⟨hcounts, -, hleases⟩
      refine ⟨hcounts, _, htext, ?_⟩
      rw [hmixed]
      exact haligned.mpr hleases
  | some k =>
    have haligned := aligned_read hitems false (by rw [hk]; rfl)
    have hwide := wide_read hk
    have hempty (hnil : meantItems c kind = []) : KeepsLeases c kind := by
      rintro rfl i hi
      have hm : meantFenced c.partitionKey true i ∈ meantItems c .transition :=
        List.mem_map_of_mem hi
      rw [hnil] at hm
      cases hm
    rw [hk] at haligned
    constructor
    · rintro ⟨hcounts, s, hs, hcells⟩
      by_cases hm : rt.upperText s = lit "MIXED"
      · rw [decide_eq_true hm] at hcells
        have hnil := (hwide _).mp hcells
        refine ⟨hcounts, fun k' hk' => ?_, hempty hnil⟩
        rw [hk] at hk'
        cases hk'
        exact ⟨s, hs, .inl hnil⟩
      · rw [decide_eq_false hm] at hcells
        refine ⟨hcounts, fun k' hk' => ?_, haligned.mp hcells⟩
        rw [hk] at hk'
        cases hk'
        exact ⟨s, hs, .inr hm⟩
    · rintro ⟨hcounts, hkey, hleases⟩
      obtain ⟨s, hs, hcase⟩ := hkey k hk
      refine ⟨hcounts, s, hs, ?_⟩
      by_cases hm : rt.upperText s = lit "MIXED"
      · rw [decide_eq_true hm]
        exact (hwide _).mpr (hcase.resolve_right fun hn => hn hm)
      · rw [decide_eq_false hm]
        exact haligned.mpr hleases

end Main

section Samples

/-- Two completions in one batch. -/
def sampleMany (key : Option PartitionKey) (first second : Option PartitionKey) : ManyCall where
  partitionKey := key
  nowMs := some 5
  claimed := [⟨lit "flow-1", [0x74], 7, first⟩, ⟨lit "flow-2", [0x2D], 8, second⟩]

theorem sampleMany_read_back :
    ∃ args, manyArgs sampleCodec 5 (sampleMany none (some (.text (lit "MIXED")))
        (some (.bytes [0xFF]))) .complete = .ok args ∧
      ∃ payload, readMany overflowing .complete args.tail = .ok payload ∧
        itemsOf payload = some (meantItems (sampleMany none (some (.text (lit "MIXED")))
          (some (.bytes [0xFF]))) .complete) := by
  refine ⟨_, rfl, ?_⟩
  refine (many_read_back overflowing overflowing_textNumbers sampleCodec 5
    (sampleMany none (some (.text (lit "MIXED"))) (some (.bytes [0xFF]))) .complete _ rfl).mpr
    ⟨?_, ?_, ?_⟩
  · intro d hd e he
    simp only [openMaps, sampleMany, List.mem_cons, List.not_mem_nil, or_false] at hd
    rcases hd with rfl | rfl <;> cases he
  · intro k hk
    cases hk
  · intro h
    cases h

/-- A batch of the partition `mixed` is not read back: the rows are cut too wide. -/
theorem mixed_partition_lost :
    ∃ args, manyArgs sampleCodec 5 (sampleMany (some (.text (lit "mixed"))) none none)
        .complete = .ok args ∧
      readMany Runtime.ascii .complete args.tail =
        invalid (lit "FLOW.*_MANY ITEMS has wrong claimed item width") := by
  refine ⟨_, rfl, ?_⟩
  decide +kernel

end Samples

end FerricStore.ManyArguments
