import FerricStore.AutobatchFields

/-!
# Groups of batched operations

A group is sent if and only if each of its operations would be sent on its own. Then the
command has an item for each of them, in order, with all the fields of its direct command.
-/

set_option autoImplicit false

namespace FerricStore.Autobatch

open Text BatchFingerprints QueuedArguments FlowOptions MutationArguments ManyArguments
  CreateManyArguments AdjacentGroups

section Succeeds

variable {α β : Type}

def Succeeds (x : Except Err α) : Prop := ∃ a, x = .ok a

@[simp] theorem succeeds_ok (a : α) : Succeeds (.ok a : Except Err α) := ⟨a, rfl⟩

@[simp] theorem not_succeeds_error (e : Err) : ¬ Succeeds (.error e : Except Err α) := by
  rintro ⟨a, ha⟩
  cases ha

theorem succeeds_bind {x : Except Err α} {f : α → Except Err β} :
    Succeeds (x >>= f) ↔ ∃ a, x = .ok a ∧ Succeeds (f a) := by
  cases x with
  | error e =>
    refine iff_of_false ?_ ?_
    · exact not_succeeds_error e
    · rintro ⟨a, ha, -⟩
      cases ha
  | ok a => exact ⟨fun h => ⟨a, rfl, h⟩, fun ⟨b, hb, h⟩ => by cases hb; exact h⟩

/-- A builder that fails only in one of its parts. -/
theorem succeeds_then {x : Except Err α} {f : α → β} :
    Succeeds (x >>= fun a => .ok (f a)) ↔ Succeeds x := by
  rw [succeeds_bind]
  exact ⟨fun ⟨a, ha, _⟩ => ⟨a, ha⟩, fun ⟨a, ha⟩ => ⟨a, ha, succeeds_ok _⟩⟩

theorem succeeds_mapM {f : α → Except Err β} {xs : List α} :
    Succeeds (xs.mapM f) ↔ ∀ x ∈ xs, Succeeds (f x) := by
  induction xs with
  | nil => simp [List.mapM_nil, Succeeds, pure, Except.pure]
  | cons x xs ih =>
    rw [List.mapM_cons, succeeds_bind, List.forall_mem_cons]
    constructor
    · rintro ⟨a, ha, hrest⟩
      exact ⟨⟨a, ha⟩, ih.mp (succeeds_then.mp hrest)⟩
    · rintro ⟨⟨a, ha⟩, hrest⟩
      exact ⟨a, ha, succeeds_then.mpr (ih.mpr hrest)⟩

end Succeeds

variable {rt : Runtime} {heap : Heap} {encode : Arg → Bytes} {clock : ℤ} {agrees : Matcher}

def joins (rt : Runtime) (a b : Operation) : Bool := sameKey (key rt a) (key rt b)

section Accepted

theorem claimed_succeeds {m : Mutation} (h : m.partitionKey.isSome) :
    Succeeds (claimedItemArgs none (claimedItem m)) ↔
      Succeeds (validateClaimGuard m.leaseToken m.fencingToken) := by
  obtain ⟨k, hk⟩ := Option.isSome_iff_exists.mp h
  have hitem : (claimedItem m).partitionKey = some k := hk
  unfold claimedItemArgs
  rw [hitem, succeeds_bind]
  exact ⟨fun ⟨u, hu, _⟩ => ⟨u, hu⟩, fun ⟨u, hu⟩ => ⟨u, hu, succeeds_ok _⟩⟩

theorem fenced_succeeds {m : Mutation} (h : m.partitionKey.isSome) :
    Succeeds (validateFencedItem none true
        (fencedItem true m.id m.fencingToken (some m.leaseToken) m.partitionKey)) ↔
      Succeeds (validateClaimGuard m.leaseToken m.fencingToken) := by
  obtain ⟨k, hk⟩ := Option.isSome_iff_exists.mp h
  simp only [validateFencedItem, fencedItem, validateClaimGuard, hk, Option.getD_some, if_true,
    true_and, reduceCtorEq, and_false, if_false, ne_eq, not_true_eq_false, false_and]
  by_cases hlease : m.leaseToken = [] <;> by_cases hfencing : m.fencingToken < 0 <;>
    simp [hlease, hfencing]

/-- What `route` keeps for the queue. -/
theorem routed_mutation {verb : Verb} {m : Mutation} (h : route rt (.mutate verb m) = .batch) :
    m.partitionKey.isSome ∧ m.stateMeta = none := by
  simp only [route] at h
  split_ifs at h with hdirect
  simp only [Bool.or_eq_true, not_or, Option.isNone_iff_eq_none, Option.isSome_iff_ne_none,
    ne_eq, not_not] at hdirect
  exact ⟨Option.isSome_iff_ne_none.mpr hdirect.1.2, hdirect.2⟩

theorem routed_cancel {c : Cancel} (h : route rt (.cancel c) = .batch) :
    c.partitionKey.isSome ∧ c.stateMeta = none := by
  simp only [route] at h
  split_ifs at h with hdirect
  simp only [Bool.or_eq_true, not_or, Option.isNone_iff_eq_none, Option.isSome_iff_ne_none,
    ne_eq, not_not] at hdirect
  exact ⟨Option.isSome_iff_ne_none.mpr hdirect.1.2, hdirect.2⟩

theorem routed_create {c : Create} (h : route rt (.create c) = .batch) :
    (∃ limit, normalizeMaxActive rt c.maxActiveMs = .ok limit) ∧ c.parentFlowId = none ∧
      c.rootFlowId = none ∧ c.correlationId = none ∧ c.stateMeta = none := by
  simp only [route] at h
  cases hlimit : normalizeMaxActive rt c.maxActiveMs with
  | error e =>
    rw [hlimit] at h
    cases h
  | ok limit =>
    rw [hlimit] at h
    simp only at h
    split_ifs at h with hdirect
    simp only [Bool.or_eq_true, not_or, Option.isSome_iff_ne_none, ne_eq, not_not] at hdirect
    exact ⟨⟨limit, rfl⟩, hdirect.1.1.1.2, hdirect.1.1.2, hdirect.1.2, hdirect.2⟩

/-- The direct call of a mutation is sent if its guard and, of a transition, its priority
are valid. -/
theorem direct_mutation_succeeds {verb : Verb} {m : Mutation} :
    Succeeds (directArgs rt heap encode clock (.mutate verb m)) ↔
      Succeeds (validateClaimGuard m.leaseToken m.fencingToken) ∧
        (verb = .transition → Succeeds (appendPriority m.priority)) := by
  cases verb with
  | transition =>
    simp only [directArgs, commandArgs, Verb.kind, transitionCommandArgs, directCall]
    rw [succeeds_bind]
    constructor
    · rintro ⟨u, hu, hrest⟩
      exact ⟨⟨u, hu⟩, fun _ => succeeds_then.mp hrest⟩
    · rintro ⟨⟨u, hu⟩, hpriority⟩
      exact ⟨u, hu, succeeds_then.mpr (hpriority trivial)⟩
  | complete =>
    simp only [directArgs, commandArgs, Verb.kind, completeCommandArgs, directCall]
    rw [succeeds_then]
    simp
  | retry =>
    simp only [directArgs, commandArgs, Verb.kind, retryCommandArgs, directCall]
    rw [succeeds_then]
    simp
  | fail =>
    simp only [directArgs, commandArgs, Verb.kind, failCommandArgs, directCall]
    rw [succeeds_then]
    simp

/-- The command of a group of mutations is sent if all of them are valid. -/
theorem many_mutation_succeeds {verb : Verb} {m : Mutation} {ops : List Operation}
    (hpartition : ∀ m' ∈ ops.filterMap Operation.mutation?, m'.partitionKey.isSome) :
    Succeeds (manyArgs wireCodec clock (manyCall heap encode ops m) verb.many) ↔
      (∀ m' ∈ ops.filterMap Operation.mutation?,
        Succeeds (validateClaimGuard m'.leaseToken m'.fencingToken)) ∧
        (verb = .transition → Succeeds (appendPriority m.priority)) := by
  have hclaimed : Succeeds (appendClaimedItemsArgs none (manyCall heap encode ops m).claimed) ↔
      ∀ m' ∈ ops.filterMap Operation.mutation?,
        Succeeds (validateClaimGuard m'.leaseToken m'.fencingToken) := by
    rw [appendClaimedItemsArgs, succeeds_then, succeeds_mapM]
    simp only [manyCall, List.forall_mem_map]
    exact forall₂_congr fun m' hm' => claimed_succeeds (hpartition m' hm')
  have hfenced : Succeeds (appendFencedItemsArgs none (manyCall heap encode ops m).fenced true) ↔
      ∀ m' ∈ ops.filterMap Operation.mutation?,
        Succeeds (validateClaimGuard m'.leaseToken m'.fencingToken) := by
    rw [appendFencedItemsArgs, succeeds_then, succeeds_mapM]
    simp only [manyCall, List.forall_mem_map]
    exact forall₂_congr fun m' hm' => fenced_succeeds (hpartition m' hm')
  cases verb with
  | complete =>
    rw [← hclaimed]
    simp only [Verb.many, manyArgs, completeManyArgs, reduceCtorEq, false_imp_iff, and_true]
    exact succeeds_then
  | retry =>
    rw [← hclaimed]
    simp only [Verb.many, manyArgs, retryManyArgs, reduceCtorEq, false_imp_iff, and_true]
    exact succeeds_then
  | fail =>
    rw [← hclaimed]
    simp only [Verb.many, manyArgs, failManyArgs, reduceCtorEq, false_imp_iff, and_true]
    exact succeeds_then
  | transition =>
    rw [← hfenced]
    simp only [Verb.many, manyArgs, transitionManyArgs, true_imp_iff]
    rw [succeeds_bind]
    constructor
    · rintro ⟨priority, hpriority, hrest⟩
      exact ⟨succeeds_then.mp hrest, priority, hpriority⟩
    · rintro ⟨hitems, priority, hpriority⟩
      exact ⟨priority, hpriority, succeeds_then.mpr hitems⟩

theorem direct_cancel_succeeds {c : Cancel} :
    Succeeds (directArgs rt heap encode clock (.cancel c)) ↔ 0 ≤ c.fencingToken := by
  simp only [directArgs, cancelCommandArgs]
  split_ifs with h
  · simpa using h
  · simpa using h

theorem many_cancel_succeeds {c : Cancel} {ops : List Operation}
    (hpartition : ∀ c' ∈ ops.filterMap Operation.cancel?, c'.partitionKey.isSome) :
    Succeeds (manyArgs wireCodec clock (cancelManyCall heap encode ops c) .cancel) ↔
      ∀ c' ∈ ops.filterMap Operation.cancel?, 0 ≤ c'.fencingToken := by
  simp only [manyArgs, cancelManyArgs]
  rw [succeeds_then, appendFencedItemsArgs, succeeds_then, succeeds_mapM]
  simp only [cancelManyCall, List.forall_mem_map]
  refine forall₂_congr fun c' hc' => ?_
  obtain ⟨k, hk⟩ := Option.isSome_iff_exists.mp (hpartition c' hc')
  simp only [validateFencedItem, fencedItem, hk, Bool.false_eq_true, false_and, if_false,
    reduceCtorEq, and_false, ne_eq, not_true_eq_false]
  by_cases hfencing : c'.fencingToken < 0
  · simp [hfencing]
  · simp [hfencing, not_lt.mp hfencing]

theorem direct_create_succeeds {c : Create} (h : route rt (.create c) = .batch) :
    Succeeds (directArgs rt heap encode clock (.create c)) ↔
      Succeeds (appendPriority c.priority) := by
  obtain ⟨⟨limit, hlimit⟩, -⟩ := routed_create h
  simp only [directArgs, createCommandArgs]
  rw [succeeds_bind]
  constructor
  · rintro ⟨priority, hpriority, -⟩
    exact ⟨priority, hpriority⟩
  · rintro ⟨priority, hpriority⟩
    exact ⟨priority, hpriority, succeeds_then.mpr ⟨limit, hlimit⟩⟩

end Accepted

section Items

/-- The items of a group are its operations, in order. -/
theorem items_get {α β : Type} {f : α → Option β} {ops : List α}
    (h : ∀ op ∈ ops, (f op).isSome) (i : ℕ) :
    (ops.filterMap f)[i]? = ops[i]?.bind f := by
  induction ops generalizing i with
  | nil => rfl
  | cons op ops ih =>
    obtain ⟨a, ha⟩ := Option.isSome_iff_exists.mp (h op List.mem_cons_self)
    rw [List.filterMap_cons_some ha]
    cases i with
    | zero => simpa using ha.symm
    | succ i => simpa using ih (fun x hx => h x (List.mem_cons_of_mem op hx)) i

theorem forall_items {α : Type} {f : Operation → Option α} {inj : α → Operation}
    (hinj : ∀ a, f (inj a) = some a) {ops : List Operation} (h : ∀ op ∈ ops, ∃ a, op = inj a)
    {P : α → Prop} : (∀ a ∈ ops.filterMap f, P a) ↔ ∀ a, inj a ∈ ops → P a := by
  constructor
  · intro hP a ha
    exact hP a (List.mem_filterMap.mpr ⟨inj a, ha, hinj a⟩)
  · intro hP a ha
    obtain ⟨op, hop, hfa⟩ := List.mem_filterMap.mp ha
    obtain ⟨b, rfl⟩ := h op hop
    rw [hinj b] at hfa
    cases hfa
    exact hP a hop

theorem update_disjoint {β : Type} (d e : Dict Str β) (h : (Dict.keys (d++e)).Nodup) :
    Dict.update d e = d++e := by
  induction e generalizing d with
  | nil => simp [Dict.update]
  | cons x e ih =>
    have hx : x.1 ∉ Dict.keys d := by
      intro hm
      rw [Dict.keys, List.map_append, List.nodup_append] at h
      exact h.2.2 x.1 hm x.1 (by simp) rfl
    have hset := Dict.set_of_not_mem d x.1 x.2 hx
    have hrest := ih (d++[x]) (by simpa using h)
    have hupdate : Dict.update d (x::e) = Dict.update (Dict.set d x.1 x.2) e := rfl
    rw [hupdate, hset, hrest]
    simp

theorem merge_empty {β : Type} (d : Named β) : mergeNamedMap Named.empty d = d :=
  Subtype.ext (update_disjoint [] d.val (by simpa using d.property))

theorem onePartition_mem {ks : List (Option PartitionKey)} {k : PartitionKey}
    (h : onePartition ks = some k) : ∀ k' ∈ ks, k' = some k := by
  cases ks with
  | nil => cases h
  | cons a ks =>
    simp only [onePartition] at h
    split_ifs at h with hall
    subst h
    simpa using hall

/-- The partition that an item of the command is in is the create's own. -/
theorem create_partition {ops : List Operation} {c c' : Create} (hmem : .create c' ∈ ops) :
    (createItem heap encode
        (onePartition ((ops.filterMap Operation.create?).map (·.partitionKey))) c').partitionKey.or
      (createManyCall rt heap encode ops c).partitionKey = c'.partitionKey := by
  simp only [createItem, createManyCall]
  cases hone : onePartition ((ops.filterMap Operation.create?).map (·.partitionKey)) with
  | none => simp
  | some k =>
    have hk := onePartition_mem hone c'.partitionKey
      (List.mem_map.mpr ⟨c', List.mem_filterMap.mpr ⟨.create c', hmem, rfl⟩, rfl⟩)
    simp [hk]

theorem create_subset {ops : List Operation} {c c' : Create} (hmem : .create c' ∈ ops)
    (hroute : route rt (.create c') = .batch)
    (hsame : c.type = c'.type ∧ c.state = c'.state ∧ c.runAtMs = c'.runAtMs ∧
      c.nowMs = c'.nowMs ∧ c.priority = c'.priority ∧ c.idempotent = c'.idempotent ∧
      limitOf rt c = limitOf rt c') :
    directCreateGroups rt heap encode clock c' ⊆
      createRow (createManyCall rt heap encode ops c) (createItem heap encode
        (onePartition ((ops.filterMap Operation.create?).map (·.partitionKey))) c')++
      settingGroups rt clock (createManyCall rt heap encode ops c) := by
  obtain ⟨hlimit, hparent, hroot, hcorrelation, hmeta⟩ := routed_create hroute
  have hpayload : encodedGroup wireCodec "PAYLOAD" "payload" (encodedArg encode c'.payload) ⊆
      [fixedGroup "PAYLOAD" "payload" (.bytes (encode c'.payload))] := by
    unfold encodedArg
    split_ifs
    · exact List.nil_subset _
    · exact List.Subset.refl _
  rw [settings_of_key ops hlimit hsame, createRow, create_partition hmem]
  intro g hg
  simp only [directCreateGroups, hparent, hroot, hcorrelation, hmeta, Option.map_none, givenGroup,
    Option.getD_none, List.mem_cons, List.mem_append, List.not_mem_nil, or_false, false_or] at hg
  have hvalues : mergeNamedMap (createManyCall rt heap encode ops c).values
      (heldValues heap encode c'.values) = heldValues heap encode c'.values := merge_empty _
  have hrefs : mergeNamedMap (createManyCall rt heap encode ops c).valueRefs
      (heldRefs heap c'.valueRefs) = heldRefs heap c'.valueRefs := merge_empty _
  simp only [createItem, hvalues, hrefs, wireCodec, List.mem_cons, List.mem_append,
    List.not_mem_nil, or_false]
  simp only [Named.empty] at hg
  have hp := @hpayload g
  simp only [List.mem_cons, List.not_mem_nil, or_false] at hp
  tauto

end Items

end FerricStore.Autobatch
