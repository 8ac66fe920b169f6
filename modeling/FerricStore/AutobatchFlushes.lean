import FerricStore.AutobatchGroups

/-!
# Flushes of the autobatching client

A flush groups adjacent operations of one key and sends one command for each group. Every
future is completed once, with the result at its own place. The fields of an operation arrive
as with a direct call where the command for many flows has a place for them.
-/

set_option autoImplicit false

namespace FerricStore.Autobatch

open Text BatchFingerprints QueuedArguments FlowOptions MutationArguments ManyArguments
  CreateManyArguments AdjacentGroups

section Sent

variable {rt : Runtime} {heap : Heap} {encode : Arg → Bytes} {clock : ℤ} {agrees : Matcher}

theorem succeeds_shared {agrees : Matcher} (all : List (Option (Named Value)))
    (h : ∀ d ∈ all, d = none) : sharedMap agrees all none = .ok none := by
  have hnone : all.filterMap id = [] := by
    rw [List.filterMap_eq_nil_iff]
    intro d hd
    rw [h d hd]
    rfl
  rw [sharedMap, hnone]

theorem createItems_succeeds {c : CreateManyCall}
    (hlimit : ∀ i ∈ c.items, i.maxActiveMs = .none) :
    Succeeds (createItemsArgs rt wireCodec c) := by
  have hmax : c.hasItemMaxActive = false := by
    simp only [CreateManyCall.hasItemMaxActive, List.any_eq_false]
    intro i hi
    simp [hlimit i hi, Value.isNone]
  unfold createItemsArgs
  by_cases hextended : c.extended = true
  · rw [if_pos hextended]
    refine succeeds_then.mpr (succeeds_mapM.mpr fun i hi => succeeds_then.mpr ?_)
    simp [itemLimitArgs, hmax]
  · rw [if_neg hextended]
    refine succeeds_then.mpr (succeeds_mapM.mpr fun i hi => ?_)
    unfold plainItemArgs
    split_ifs with hmixed
    · cases hkey : i.partitionKey with
      | some k => exact succeeds_ok _
      | none =>
        refine absurd ?_ hextended
        simp only [CreateManyCall.extended, hmixed, Bool.true_and, Bool.or_eq_true,
          List.any_eq_true, decide_eq_true_eq]
        exact .inr ⟨i, hi, hkey⟩
    · exact succeeds_ok _

theorem many_create_succeeds {c : Create} {ops : List Operation}
    (hlimit : ∃ limit, normalizeMaxActive rt c.maxActiveMs = .ok limit) :
    Succeeds (createManyArgs rt wireCodec clock (createManyCall rt heap encode ops c) agrees) ↔
      Succeeds (appendPriority c.priority) := by
  have hattributes : sharedCreateManyAttributes agrees (createManyCall rt heap encode ops c) =
      .ok none := by
    refine succeeds_shared _ fun d hd => ?_
    simp only [createManyCall, List.map_map, List.mem_map] at hd
    obtain ⟨x, -, rfl⟩ := hd
    rfl
  have hmeta : sharedCreateManyStateMeta agrees (createManyCall rt heap encode ops c) =
      .ok none := by
    refine succeeds_shared _ fun d hd => ?_
    simp only [createManyCall, List.map_map, List.mem_map] at hd
    obtain ⟨x, -, rfl⟩ := hd
    rfl
  have hkeys : ¬ ((createManyCall rt heap encode ops c).partitionKey ≠ none ∧
      ((createManyCall rt heap encode ops c).items.any fun i => i.partitionKey ≠ none &&
        i.partitionKey ≠ (createManyCall rt heap encode ops c).partitionKey) = true) := by
    rintro ⟨hkey, hany⟩
    obtain ⟨i, hi, hother⟩ := List.any_eq_true.mp hany
    simp only [createManyCall, List.mem_map] at hi hkey
    obtain ⟨x, -, rfl⟩ := hi
    simp [createItem, Option.isSome_iff_ne_none.mpr hkey] at hother
  have hnormal : Succeeds (normalizeMaxActive rt (limitOf rt c)) := by
    obtain ⟨limit, hlimit⟩ := hlimit
    refine ⟨limit, ?_⟩
    rw [limitOf, hlimit, Except.toOption, Option.getD_some, normalizeMaxActive,
      normalized_twice hlimit]
    rfl
  have hitems : Succeeds (createItemsArgs rt wireCodec (createManyCall rt heap encode ops c)) := by
    refine createItems_succeeds fun i hi => ?_
    simp only [createManyCall, List.mem_map] at hi
    obtain ⟨x, -, rfl⟩ := hi
    rfl
  unfold createManyArgs
  rw [hattributes, except_ok_bind, hmeta, except_ok_bind, if_neg hkeys, succeeds_bind]
  constructor
  · rintro ⟨priority, hpriority, -⟩
    exact ⟨priority, hpriority⟩
  · rintro ⟨priority, hpriority⟩
    refine ⟨priority, hpriority, succeeds_bind.mpr ?_⟩
    obtain ⟨limit, hl⟩ := hnormal
    exact ⟨limit, hl, succeeds_then.mpr hitems⟩

theorem forall_group {α : Type} {inj : α → Operation} {ops : List Operation}
    (h : ∀ op ∈ ops, ∃ a, op = inj a) {P : Operation → Prop} :
    (∀ op ∈ ops, P op) ↔ ∀ a, inj a ∈ ops → P (inj a) := by
  refine ⟨fun hP a ha => hP _ ha, fun hP op hop => ?_⟩
  obtain ⟨a, rfl⟩ := h op hop
  exact hP a hop

/-- A group of mutations is of one kind. -/
theorem group_kind {verb : Verb} {m : Mutation} {rest : List Operation}
    (hrest : ∀ op ∈ rest, joins rt (.mutate verb m) op = true) :
    ∀ op ∈ (.mutate verb m::rest : List Operation), ∃ m', op = .mutate verb m' := by
  rw [List.forall_mem_cons]
  exact ⟨⟨m, rfl⟩, fun op hop => kind_of_key (hrest op hop)⟩

theorem group_cancels {c : Cancel} {rest : List Operation}
    (hrest : ∀ op ∈ rest, joins rt (.cancel c) op = true) :
    ∀ op ∈ (.cancel c::rest : List Operation), ∃ c', op = .cancel c' := by
  rw [List.forall_mem_cons]
  exact ⟨⟨c, rfl⟩, fun op hop => cancel_of_key (hrest op hop)⟩

theorem group_creates {c : Create} {rest : List Operation}
    (hrest : ∀ op ∈ rest, joins rt (.create c) op = true) :
    ∀ op ∈ (.create c::rest : List Operation), ∃ c', op = .create c' ∧ c.type = c'.type ∧
      c.state = c'.state ∧ c.runAtMs = c'.runAtMs ∧ c.nowMs = c'.nowMs ∧
      c.priority = c'.priority ∧ c.idempotent = c'.idempotent ∧ limitOf rt c = limitOf rt c' := by
  rw [List.forall_mem_cons]
  exact ⟨⟨c, rfl, rfl, rfl, rfl, rfl, rfl, rfl, rfl⟩, fun op hop => create_of_key (hrest op hop)⟩

theorem priority_of_key {m m' : Mutation}
    (h : sameKey (mutationKey m .transition) (mutationKey m' .transition) = true) :
    m.priority = m'.priority := by
  simp only [mutationKey, List.cons_append, List.nil_append, sameKey, batchKeyValue,
    KeyPart.same, Bool.and_eq_true, decide_eq_true_eq] at h
  exact h.2.2.2.2.2.2.1

theorem forall_mutations {verb : Verb} {ops : List Operation}
    (h : ∀ op ∈ ops, ∃ m, op = .mutate verb m) {P : Mutation → Prop} :
    (∀ m ∈ ops.filterMap Operation.mutation?, P m) ↔ ∀ m, .mutate verb m ∈ ops → P m :=
  @forall_items Mutation Operation.mutation? (.mutate verb) (fun _ => rfl) ops h P

theorem forall_cancels {ops : List Operation} (h : ∀ op ∈ ops, ∃ c, op = .cancel c)
    {P : Cancel → Prop} :
    (∀ c ∈ ops.filterMap Operation.cancel?, P c) ↔ ∀ c, .cancel c ∈ ops → P c :=
  @forall_items Cancel Operation.cancel? .cancel (fun _ => rfl) ops h P

/-- A group is sent if and only if each of its operations would be. -/
theorem group_succeeds {ops : List Operation} (hjoined : Joined (joins rt) ops)
    (hroute : ∀ op ∈ ops, route rt op = .batch) :
    Succeeds (groupArgs rt heap encode clock agrees ops) ↔
      ∀ op ∈ ops, Succeeds (directArgs rt heap encode clock op) := by
  obtain ⟨head, rest, rfl, hrest⟩ := hjoined
  cases head with
  | mutate verb m =>
    have hsame := group_kind hrest
    have hpartition : ∀ m' ∈ (.mutate verb m::rest : List Operation).filterMap
        Operation.mutation?, m'.partitionKey.isSome := by
      rw [forall_mutations hsame]
      exact fun m' hm' => (routed_mutation (hroute _ hm')).1
    have hpriority : verb = .transition → ∀ m', .mutate verb m' ∈
        (.mutate verb m::rest : List Operation) → m'.priority = m.priority := by
      rintro rfl m' hm'
      rcases List.mem_cons.mp hm' with heq | hm'
      · cases heq
        rfl
      · exact (priority_of_key (hrest _ hm')).symm
    rw [groupArgs, many_mutation_succeeds hpartition, forall_mutations hsame,
      forall_group hsame]
    simp only [direct_mutation_succeeds]
    constructor
    · rintro ⟨hguards, hone⟩ m' hm'
      exact ⟨hguards m' hm', fun hverb => hpriority hverb m' hm' ▸ hone hverb⟩
    · intro h
      exact ⟨fun m' hm' => (h m' hm').1, fun hverb => (h m (by simp)).2 hverb⟩
  | cancel c =>
    have hsame := group_cancels hrest
    have hpartition : ∀ c' ∈ (.cancel c::rest : List Operation).filterMap
        Operation.cancel?, c'.partitionKey.isSome := by
      rw [forall_cancels hsame]
      exact fun c' hc' => (routed_cancel (hroute _ hc')).1
    rw [groupArgs, many_cancel_succeeds hpartition, forall_cancels hsame, forall_group hsame]
    simp only [direct_cancel_succeeds]
  | create c =>
    have hsame := group_creates hrest
    have hlimit := (routed_create (hroute _ List.mem_cons_self)).1
    rw [groupArgs, many_create_succeeds hlimit]
    constructor
    · intro hpriority op hop
      obtain ⟨c', rfl, -, -, -, -, hp, -, -⟩ := hsame op hop
      rw [direct_create_succeeds (hroute _ hop), ← hp]
      exact hpriority
    · intro h
      exact (direct_create_succeeds (hroute _ List.mem_cons_self)).mp (h _ List.mem_cons_self)

theorem fenced_subset {m : Mutation} {shared : List Group} :
    leaseGroup m.leaseToken::fencingGroup m.fencingToken::(keyGroup m.partitionKey++shared) ⊆
      fencedRow true (fencedItem true m.id m.fencingToken (some m.leaseToken) m.partitionKey)++
        shared := by
  intro g hg
  simp only [fencedRow, fencedItem, if_true, Option.map_some, Option.toList_some, List.mem_cons,
    List.mem_append, List.not_mem_nil, or_false] at hg ⊢
  tauto

theorem map_get {α β : Type} {l : List α} {i : ℕ} {x : α} (f : α → β) (h : l[i]? = some x) :
    (l.map f)[i]? = some (f x) := by
  simp [h]

/-- The item of a mutation in the command of its group. -/
theorem mutation_within {verb : Verb} {m m' : Mutation} {ops : List Operation} {i : ℕ}
    (hitem : (ops.filterMap Operation.mutation?)[i]? = some m') (hmeta : m'.stateMeta = none)
    (hrun : Expressible (.mutate verb m'))
    (hshared : verb.states m = verb.states m' ∧
      manyGroups wireCodec clock (manyCall heap encode ops m) verb.many =
        manyGroups wireCodec clock (manyCall heap encode ops m') verb.many) :
    ∃ b, (manySent clock (manyCall heap encode ops m) verb.many)[i]? = some b ∧
      (directFields rt heap encode clock (.mutate verb m')).Within b := by
  obtain ⟨hstates, hgroups⟩ := hshared
  have hfields : leaseGroup m'.leaseToken::groups wireCodec clock (directCall heap encode m')
      verb.kind ⊆ leaseGroup m'.leaseToken::fencingGroup m'.fencingToken::
        (keyGroup m'.partitionKey++
          manyGroups wireCodec clock (manyCall heap encode ops m) verb.many) := by
    rw [hgroups]
    exact direct_subset hmeta hrun ops
  have hclaimed : (manyCall heap encode ops m).claimed[i]? = some (claimedItem m') := by
    simp [manyCall, hitem]
  have hfenced : (manyCall heap encode ops m).fenced[i]? =
      some (fencedItem true m'.id m'.fencingToken (some m'.leaseToken) m'.partitionKey) := by
    simp [manyCall, hitem]
  cases verb with
  | transition =>
    exact ⟨_, map_get _ hfenced, rfl, hstates.symm, List.Subset.trans hfields fenced_subset⟩
  | complete => exact ⟨_, map_get _ hclaimed, rfl, rfl, hfields⟩
  | retry => exact ⟨_, map_get _ hclaimed, rfl, rfl, hfields⟩
  | fail => exact ⟨_, map_get _ hclaimed, rfl, rfl, hfields⟩

theorem cancel_within {c c' : Cancel} {ops : List Operation} {i : ℕ}
    (hitem : (ops.filterMap Operation.cancel?)[i]? = some c') (hmeta : c'.stateMeta = none)
    (hlease : c'.leaseToken = none)
    (hgroups : manyGroups wireCodec clock (cancelManyCall heap encode ops c) .cancel =
      manyGroups wireCodec clock (cancelManyCall heap encode ops c') .cancel) :
    ∃ b, (manySent clock (cancelManyCall heap encode ops c) .cancel)[i]? = some b ∧
      (directFields rt heap encode clock (.cancel c')).Within b := by
  have hfenced : (cancelManyCall heap encode ops c).fenced[i]? =
      some (fencedItem false c'.id c'.fencingToken c'.leaseToken c'.partitionKey) := by
    simp [cancelManyCall, hitem]
  refine ⟨_, map_get _ hfenced, rfl, rfl, ?_⟩
  simp only [directFields, fencedRow, Bool.false_eq_true, if_false, List.append_nil, hgroups]
  exact cancel_subset hmeta hlease ops

/-- The command of a group has an item for each operation with the fields of its direct
command. -/
theorem group_within {head : Operation} {rest : List Operation}
    (hrest : ∀ op ∈ rest, joins rt head op = true)
    (hroute : ∀ op ∈ head::rest, route rt op = .batch)
    (hregular : ∀ op ∈ head::rest, Expressible op ∧ Alike encode head op) {i : ℕ}
    {op : Operation} (hi : (head::rest)[i]? = some op) :
    ∃ b, (groupFields rt heap encode clock (head::rest))[i]? = some b ∧
      (directFields rt heap encode clock op).Within b := by
  have hmem : op ∈ head::rest := List.mem_of_getElem? hi
  have hkey : op = head ∨ joins rt head op = true := by
    rcases List.mem_cons.mp hmem with rfl | hop
    · exact .inl rfl
    · exact .inr (hrest op hop)
  obtain ⟨hexpressible, halike⟩ := hregular op hmem
  cases head with
  | mutate verb m =>
    have hsame := group_kind hrest
    have hsome : ∀ x ∈ (.mutate verb m::rest : List Operation),
        (Operation.mutation? x).isSome := by
      intro x hx
      obtain ⟨y, rfl⟩ := hsame x hx
      rfl
    obtain ⟨m', rfl⟩ := hsame op hmem
    refine mutation_within ?_ (routed_mutation (hroute _ hmem)).2 hexpressible ?_
    · rw [items_get hsome, hi]
      rfl
    · rcases hkey with heq | hkey
      · cases heq
        exact ⟨rfl, rfl⟩
      · exact groups_of_key hkey halike _
  | cancel c =>
    have hsame := group_cancels hrest
    have hsome : ∀ x ∈ (.cancel c::rest : List Operation), (Operation.cancel? x).isSome := by
      intro x hx
      obtain ⟨y, rfl⟩ := hsame x hx
      rfl
    obtain ⟨c', rfl⟩ := hsame op hmem
    refine cancel_within ?_ (routed_cancel (hroute _ hmem)).2 hexpressible ?_
    · rw [items_get hsome, hi]
      rfl
    · rcases hkey with heq | hkey
      · cases heq
        rfl
      · exact cancelGroups_of_key hkey halike _
  | create c =>
    have hsame := group_creates hrest
    have hsome : ∀ x ∈ (.create c::rest : List Operation), (Operation.create? x).isSome := by
      intro x hx
      obtain ⟨y, rfl, -⟩ := hsame x hx
      rfl
    obtain ⟨c', rfl, hshared⟩ := hsame op hmem
    have hitem : ((.create c::rest : List Operation).filterMap Operation.create?)[i]? = some c' := by
      rw [items_get hsome, hi]
      rfl
    refine ⟨_, map_get _ (map_get _ hitem), rfl, rfl, ?_⟩
    exact create_subset hmem (hroute _ hmem) hshared

end Sent

end FerricStore.Autobatch
