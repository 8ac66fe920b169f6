import FerricStore.BatchPlans

/-!
# Batches are split and merged without loss

Merging puts the answer to an entry at its number. The callbacks of concurrent groups
reach the same merge in every order of completion, and the first failure of a group is
the outcome of the batch.
-/

set_option autoImplicit false

namespace FerricStore.BatchPlans
open ScatterGather

section Completion

variable {T C β : Type}

theorem completeGroup_done {plan : RouteBatchPlan T C} {s : Gathering β}
    {outcome : Except Err (List (Option β))} (h : s.future = some outcome)
    (dones : List (ℕ × Except Err (List β))) :
    (dones.foldl (completeGroup plan) s).future = some outcome := by
  induction dones generalizing s with
  | nil => exact h
  | cons d dones ih =>
    have hstay : completeGroup plan s d = s := by
      unfold completeGroup
      split
      · rw [Gathering.trySet, h]
      · rw [h]
    rw [List.foldl_cons, hstay]
    exact ih h

theorem completeGroup_error {plan : RouteBatchPlan T C} {s : Gathering β} {j : ℕ} {e : Err}
    (h : s.future = none) : (completeGroup plan s (j, .error e)).future = some (.error e) := by
  simp only [completeGroup, Gathering.trySet, h]

theorem completeGroup_ok {plan : RouteBatchPlan T C} {s : Gathering β} {j : ℕ} {v : List β}
    (h : s.future = none) (hr : 1 < s.remaining) :
    completeGroup plan s (j, .ok v) =
      ⟨s.groupValues.set j (some v), s.remaining-1, none⟩ := by
  simp only [completeGroup, h]
  rw [if_neg (by omega)]

theorem completeGroup_last {plan : RouteBatchPlan T C} {s : Gathering β} {j : ℕ} {v : List β}
    (h : s.future = none) (hr : s.remaining = 1) :
    (completeGroup plan s (j, .ok v)).future =
      some (mergeCollected plan (s.groupValues.set j (some v))) := by
  simp only [completeGroup, h, hr, Nat.sub_self, if_true, Gathering.trySet]

/-- The first failure of a run of completions. -/
def firstFailure (dones : List (ℕ × Except Err (List β))) : Option Err :=
  dones.findSome? fun d => match d.2 with
    | .error e => some e
    | .ok _ => none

theorem failed_future {plan : RouteBatchPlan T C} {s : Gathering β}
    {dones : List (ℕ × Except Err (List β))} {e : Err} (hf : firstFailure dones = some e)
    (h : s.future = none) (hr : s.remaining = dones.length) :
    (dones.foldl (completeGroup plan) s).future = some (.error e) := by
  induction dones generalizing s with
  | nil => cases hf
  | cons d dones ih =>
    obtain ⟨j, outcome⟩ := d
    cases outcome with
    | error e' =>
      cases hf
      exact completeGroup_done (completeGroup_error h) dones
    | ok v =>
      have htail : 0 < dones.length := by
        cases dones with
        | nil => cases hf
        | cons d dones => exact Nat.succ_pos _
      rw [List.length_cons] at hr
      rw [List.foldl_cons, completeGroup_ok h (by omega)]
      exact ih hf rfl (by simp [hr])

/-- The collected values are those of the completed groups. -/
def Collected (values : List (List β)) (waiting : List ℕ) (s : Gathering β) : Prop :=
  s.groupValues.length = values.length ∧
    ∀ j < values.length, j ∉ waiting → s.groupValues[j]? = some values[j]?

theorem collected_all {values : List (List β)} {collected : List (Option (List β))}
    (hl : collected.length = values.length)
    (h : ∀ j < values.length, collected[j]? = some values[j]?) : collected.mapM id = some values := by
  have heq : collected = values.map some := by
    apply List.ext_getElem?
    intro j
    by_cases hj : j < values.length
    · rw [h j hj, List.getElem?_map, List.getElem?_eq_getElem hj]
      rfl
    · rw [List.getElem?_eq_none (by omega), List.getElem?_eq_none (by simpa using hj)]
  rw [heq]
  clear hl h heq
  induction values with
  | nil => rfl
  | cons v values ih =>
    rw [List.map_cons, List.mapM_cons, ih]
    rfl

theorem completed_future {plan : RouteBatchPlan T C} {values : List (List β)}
    {order : List ℕ} (hn : order.Nodup) (hb : ∀ j ∈ order, j < values.length) (ho : order ≠ [])
    {s : Gathering β} (h : s.future = none) (hr : s.remaining = order.length)
    (hc : Collected values order s) :
    ((order.map fun j => (j, Except.ok (values.getD j []))).foldl (completeGroup plan) s).future =
      some (plan.merge values) := by
  induction order generalizing s with
  | nil => exact absurd rfl ho
  | cons j order ih =>
    have hj := hb j List.mem_cons_self
    have hset : Collected values order
        ⟨s.groupValues.set j (some (values.getD j [])), s.remaining-1, none⟩ := by
      refine ⟨by rw [List.length_set]; exact hc.1, fun i hi hmem => ?_⟩
      by_cases hij : j = i
      · subst hij
        rw [List.getElem?_set_self (by rw [hc.1]; exact hj), List.getD_eq_getElem?_getD,
          List.getElem?_eq_getElem hj]
        rfl
      · rw [List.getElem?_set_ne hij]
        exact hc.2 i hi (by simp [hmem, Ne.symm hij])
    rw [List.length_cons] at hr
    rw [List.map_cons, List.foldl_cons]
    cases order with
    | nil =>
      rw [List.map_nil, List.foldl_nil, completeGroup_last h (by simpa using hr), mergeCollected,
        collected_all hset.1 fun i hi => hset.2 i hi (by simp)]
    | cons i rest =>
      rw [completeGroup_ok h (by simp [hr])]
      exact ih (List.nodup_cons.mp hn).2 (fun i hi => hb i (List.mem_cons_of_mem _ hi)) (by simp)
        rfl (by simp [hr]) hset

end Completion

section Lossless

variable {T C I κ κ' β ρ : Type} [DecidableEq κ] [DecidableEq κ']

/-- Every entry is in one group, and the numbers of a group ascend. -/
structure Splits (n : ℕ) (groups : List (List ℕ)) : Prop where
  once : ∀ i < n, ∃! j : ℕ, ∃ g : List ℕ, groups[j]? = some g ∧ i ∈ g
  within : ∀ g ∈ groups, ∀ i ∈ g, i < n
  ordered : ∀ g ∈ groups, g.Pairwise (· < ·)

/-- The results have at the number of an entry the value that its group gave for it. -/
structure Delivers (n : ℕ) (groups : List (List ℕ)) (values : List (List β))
    (results : List (Option β)) : Prop where
  length : results.length = n
  value : ∀ (j p i : ℕ) (g : List ℕ) (v : List β) (b : β), groups[j]? = some g →
    values[j]? = some v → g[p]? = some i → v[p]? = some b → results[i]? = some (some b)

theorem scatter_splits (key : I → κ) (items : List I) :
    Splits items.length (numbers (scatter key items)) where
  once _ hi := unique_group (numbers_nodup key items) (mem_numbers.mpr hi)
  within g hg _ hi := mem_numbers.mp (List.mem_flatten.mpr ⟨g, hg, hi⟩)
  ordered := numbers_sorted key items

theorem scatter_delivers (key : I → κ) (items : List I) {values : List (List β)}
    (h : List.Forall₂ (fun g v => v.length = g.length) (numbers (scatter key items)) values) :
    Delivers items.length (numbers (scatter key items)) values
      (place (List.replicate items.length none)
        (answersOf (numbers (scatter key items)) values)) where
  length := by rw [place_length, List.length_replicate]
  value _ _ _ _ _ _ hg hv hi hb := gather_get (numbers_nodup key items)
    (fun _ hi => mem_numbers.mp hi) h hg hv hi hb

theorem merge_delivers (groupKey : T → κ) (routed : List (T × C)) {values : List (List β)}
    (h : List.Forall₂ (fun g v => v.length = g.length)
      ((RouteBatchPlan.build groupKey routed).groups.map RouteBatchGroup.indexes) values) :
    ∃ results, (RouteBatchPlan.build groupKey routed).merge values = .ok results ∧
      Delivers routed.length
        ((RouteBatchPlan.build groupKey routed).groups.map RouteBatchGroup.indexes) values
        results := by
  have hlength := h.length_eq
  rw [List.length_map] at hlength
  rw [RouteBatchPlan.merge, if_neg (not_not.mpr hlength.symm), mergeGroups_ok h]
  rw [build_indexes] at h ⊢
  exact ⟨_, rfl, scatter_delivers _ routed h⟩

theorem merge_rejects (plan : RouteBatchPlan T C) {values : List (List β)}
    (h : ¬List.Forall₂ (fun g v => v.length = g.length)
      (plan.groups.map RouteBatchGroup.indexes) values) :
    ∃ e, plan.merge values = .error e := by
  rw [RouteBatchPlan.merge]
  split_ifs with hl
  · exact ⟨_, rfl⟩
  · exact mergeGroups_error (by rw [List.length_map]; exact not_not.mp hl) h _

theorem created_indexes (partitionKey : I → κ) (items : List I) (nowMs : Option ℤ) (clock : ℤ) :
    ((CreateManyPlan.build partitionKey items nowMs clock).groups.map
      fun g => g.indexedItems.map Prod.fst) = numbers (scatter partitionKey items) := by
  simp only [CreateManyPlan.build, List.map_map]
  rfl

theorem created_items {partitionKey : I → κ} {items : List I} {nowMs : Option ℤ} {clock : ℤ}
    {g : CreateManyGroup κ I} (h : g ∈ (CreateManyPlan.build partitionKey items nowMs clock).groups)
    {i : ℕ} {x : I} (hx : (i, x) ∈ g.indexedItems) :
    items[i]? = some x ∧ partitionKey x = g.partitionKey := by
  obtain ⟨⟨k, entries⟩, hk, rfl⟩ := List.mem_map.mp h
  simp only [mem_scatter hk] at hx
  obtain ⟨p, hp, hi⟩ := mem_enumerate.mp (List.mem_of_mem_filter hx)
  rw [Nat.zero_add] at hi
  exact ⟨hi ▸ hp, by simpa using List.of_mem_filter hx⟩

theorem created_delivers (partitionKey : I → κ) (items : List I) (nowMs : Option ℤ) (clock : ℤ)
    {responses : List ρ} {expand : ρ → ℕ → Except Err (List β)}
    (h : List.Forall₂ (ExpandsTo expand)
      ((CreateManyPlan.build partitionKey items nowMs clock).groups.map
        fun g => g.indexedItems.map Prod.fst) responses) :
    ∃ values results, Expanded expand
        ((CreateManyPlan.build partitionKey items nowMs clock).groups.map
          fun g => g.indexedItems.map Prod.fst) responses values ∧
      (CreateManyPlan.build partitionKey items nowMs clock).merge responses expand = .ok results ∧
      Delivers items.length ((CreateManyPlan.build partitionKey items nowMs clock).groups.map
        fun g => g.indexedItems.map Prod.fst) values results := by
  have hlength := h.length_eq
  rw [List.length_map] at hlength
  rw [CreateManyPlan.merge, if_neg (not_not.mpr hlength.symm)]
  obtain ⟨values, hvalues, hmerge⟩ := mergeCreated_ok h (List.replicate items.length none)
  refine ⟨values, _, hvalues, hmerge, ?_⟩
  have hlengths := hvalues.lengths
  rw [created_indexes] at hlengths ⊢
  exact scatter_delivers partitionKey items hlengths

omit [DecidableEq κ] in
theorem created_rejects (plan : CreateManyPlan κ I) {responses : List ρ}
    {expand : ρ → ℕ → Except Err (List β)}
    (h : ¬List.Forall₂ (ExpandsTo expand)
      (plan.groups.map fun g => g.indexedItems.map Prod.fst) responses) :
    ∃ e, plan.merge responses expand = .error e := by
  rw [CreateManyPlan.merge]
  split_ifs with hl
  · exact ⟨_, rfl⟩
  · exact mergeCreated_error (by rw [List.length_map]; exact not_not.mp hl) h _

theorem merged_future (plan : RouteBatchPlan T C) {values : List (List β)} {order : List ℕ}
    (hv : values.length = plan.groups.length) (hg : plan.groups ≠ [])
    (ho : order.Perm (List.range plan.groups.length)) :
    ((order.map fun j => (j, Except.ok (values.getD j []))).foldl (completeGroup plan)
      (Gathering.start plan.groups.length)).future = some (plan.merge values) := by
  have hlength : order.length = plan.groups.length := by
    rw [ho.length_eq, List.length_range]
  refine completed_future (ho.nodup_iff.mpr List.nodup_range) (fun j hj => ?_) (fun he => hg ?_)
    rfl hlength.symm ⟨?_, fun j hj hmem => ?_⟩
  · rw [hv]
    exact List.mem_range.mp (ho.mem_iff.mp hj)
  · rw [he] at hlength
    exact List.length_eq_zero_iff.mp hlength.symm
  · rw [hv]
    exact List.length_replicate
  · exact absurd (ho.mem_iff.mpr (List.mem_range.mpr (hv ▸ hj))) hmem

theorem build_groups_ne_nil (groupKey : T → κ) {routed : List (T × C)} (h : routed ≠ []) :
    (RouteBatchPlan.build groupKey routed).groups ≠ [] := by
  intro hnil
  have hempty := build_indexes groupKey routed
  rw [hnil] at hempty
  have hzero : 0 ∈ (numbers (scatter (fun x => groupKey x.1) routed)).flatten :=
    mem_numbers.mpr (List.length_pos_iff.mpr h)
  rw [← hempty] at hzero
  cases hzero

/-- A batch is split into groups that keep its order and merged back without loss, in every
order of completion; so is a create batch, with answers that expand to one result for
each item. -/
theorem batches_split_and_merge (groupKey : T → κ) (routed : List (T × C))
    (partitionKey : I → κ') (items : List I) (nowMs : Option ℤ) (clock : ℤ) :
    let plan : RouteBatchPlan T C := RouteBatchPlan.build groupKey routed
    let indexes := plan.groups.map RouteBatchGroup.indexes
    let created := CreateManyPlan.build partitionKey items nowMs clock
    let numbered := created.groups.map fun g => g.indexedItems.map Prod.fst
    (Splits routed.length indexes ∧
      (∀ g ∈ plan.groups,
        g.commands.map some = g.indexes.map (fun i => routed[i]?.map Prod.snd) ∧
        ∀ i ∈ g.indexes, (routed[i]?.map fun x => groupKey x.1) = some (groupKey g.target)) ∧
      (∀ values : List (List β),
        List.Forall₂ (fun g v => v.length = g.length) indexes values →
        ∃ results, plan.merge values = .ok results ∧
          Delivers routed.length indexes values results) ∧
      (∀ values : List (List β),
        ¬List.Forall₂ (fun g v => v.length = g.length) indexes values →
        ∃ e, plan.merge values = .error e) ∧
      (∀ (values : List (List β)) (order : List ℕ), routed ≠ [] →
        values.length = plan.groups.length → order.Perm (List.range plan.groups.length) →
        ((order.map fun j => (j, Except.ok (values.getD j []))).foldl (completeGroup plan)
          (Gathering.start plan.groups.length)).future = some (plan.merge values)) ∧
      (∀ (dones : List (ℕ × Except Err (List β))) (e : Err),
        (dones.map Prod.fst).Perm (List.range plan.groups.length) →
        firstFailure dones = some e →
        (dones.foldl (completeGroup plan) (Gathering.start plan.groups.length)).future =
          some (.error e))) ∧
    (Splits items.length numbered ∧
      (∀ g ∈ created.groups, ∀ i x, (i, x) ∈ g.indexedItems →
        items[i]? = some x ∧ partitionKey x = g.partitionKey) ∧
      (∀ (responses : List ρ) (expand : ρ → ℕ → Except Err (List β)),
        List.Forall₂ (ExpandsTo expand) numbered responses →
        ∃ values results, Expanded expand numbered responses values ∧
          created.merge responses expand = .ok results ∧
          Delivers items.length numbered values results) ∧
      (∀ (responses : List ρ) (expand : ρ → ℕ → Except Err (List β)),
        ¬List.Forall₂ (ExpandsTo expand) numbered responses →
        ∃ e, created.merge responses expand = .error e)) := by
  intro plan indexes created numbered
  constructor
  · refine ⟨?_, fun g hg => (build_group hg).2, fun values => merge_delivers groupKey routed,
      fun values => merge_rejects plan, fun values order hr hv ho =>
        merged_future plan hv (build_groups_ne_nil groupKey hr) ho, fun dones e hd hf => ?_⟩
    · rw [show indexes = _ from build_indexes groupKey routed]
      exact scatter_splits _ routed
    · refine failed_future hf rfl ?_
      have hlength := hd.length_eq
      rw [List.length_map, List.length_range] at hlength
      exact hlength.symm
  · refine ⟨?_, fun g hg i x hx => created_items hg hx, fun responses expand =>
      created_delivers partitionKey items nowMs clock, fun responses expand =>
        created_rejects created⟩
    rw [show numbered = _ from created_indexes partitionKey items nowMs clock]
    exact scatter_splits partitionKey items

example : (RouteBatchPlan.build id [(1, 'a'), (2, 'b'), (1, 'c')]).merge [["x", "z"], ["y"]] =
    .ok [some "x", some "y", some "z"] := by rfl

end Lossless

end FerricStore.BatchPlans
