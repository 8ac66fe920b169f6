import FerricStore.RoutingTopology

/-!
# When a topology is built, and what it holds

A topology is built exactly from well-formed ranges that share no slot, leave none
out and give every shard a range. The slot table and the destinations do not show
the order of the ranges; the endpoint of an identity is the one of its last range.
-/

set_option autoImplicit false

namespace FerricStore.RoutingTopology
open Text IntervalTables

theorem mem_routedShards (rs : List (Interval Route)) (s : Finset ℤ) (k : ℤ) :
    k ∈ rs.foldl (fun s r => insert r.value.shard s) s ↔
      k ∈ s ∨ ∃ r ∈ rs, r.value.shard = k := by
  induction rs generalizing s with
  | nil => simp
  | cons r rs ih =>
    rw [List.foldl_cons, ih, Finset.mem_insert]
    simp only [List.mem_cons, exists_eq_or_imp, eq_comm (a := k)]
    tauto

/-- A set of numbers below a bound has as many members as the bound exactly when it
has them all. -/
theorem card_eq_iff (s : Finset ℤ) (n : ℤ) (hn : 0 < n) (h : ∀ k ∈ s, 0 ≤ k ∧ k < n) :
    (s.card : ℤ) = n ↔ ∀ k, 0 ≤ k → k < n → k ∈ s := by
  have hsub : s ⊆ Finset.Ico 0 n := fun k hk => Finset.mem_Ico.mpr (h k hk)
  have hcard : (Finset.Ico 0 n).card = n.toNat := by simp
  constructor
  · intro hc k h0 hlt
    have heq : s = Finset.Ico 0 n := Finset.eq_of_subset_of_card_le hsub (by omega)
    rw [heq]
    exact Finset.mem_Ico.mpr ⟨h0, hlt⟩
  · intro hall
    have heq : s = Finset.Ico 0 n := Finset.Subset.antisymm hsub fun k hk =>
      hall k (Finset.mem_Ico.mp hk).1 (Finset.mem_Ico.mp hk).2
    rw [heq, hcard]
    omega

/-- The endpoint of the last range with an identity is kept. -/
theorem get?_endpoints (rs : List (Interval Route)) (d : Dict Identity Endpoint)
    (identity : Identity) :
    Dict.get? (rs.foldl
        (fun d r => Dict.set d r.value.endpointIdentity r.value.endpoint) d) identity =
      ((rs.reverse.find? fun r => r.value.endpointIdentity = identity).map
        fun r => r.value.endpoint).or (Dict.get? d identity) := by
  induction rs generalizing d with
  | nil => rfl
  | cons r rs ih =>
    rw [List.foldl_cons, ih, Dict.get?_set, List.reverse_cons, List.find?_append]
    cases rs.reverse.find? fun x => decide (x.value.endpointIdentity = identity) with
    | some x => simp
    | none => by_cases hi : r.value.endpointIdentity = identity <;> simp [hi]

theorem map_some_filterMap {α : Type} (t : List (Option α)) (h : ∀ c ∈ t, c.isSome) :
    (t.filterMap id).map some = t := by
  induction t with
  | nil => rfl
  | cons c t ih =>
    rw [List.forall_mem_cons] at h
    obtain ⟨v, rfl⟩ := Option.isSome_iff_exists.mp h.1
    have hcons : (some v::t).filterMap id = v::t.filterMap id := rfl
    rw [hcons, List.map_cons, ih h.2]

theorem keys_setdefault {κ β : Type} [DecidableEq κ] (d : Dict κ β) (k : κ) (v : β) (a : κ) :
    a ∈ Dict.keys (Dict.setdefault d k v) ↔ a ∈ Dict.keys d ∨ a = k := by
  unfold Dict.setdefault
  by_cases hc : Dict.contains d k = true
  · rw [if_pos hc]
    have hk := (Dict.get?_isSome_iff d k).mp hc
    constructor
    · exact .inl
    · rintro (hm | rfl)
      · exact hm
      · exact hk
  · rw [if_neg hc]
    simp [Dict.keys]

theorem nodup_setdefault {κ β : Type} [DecidableEq κ] {d : Dict κ β} (k : κ) (v : β)
    (h : (Dict.keys d).Nodup) : (Dict.keys (Dict.setdefault d k v)).Nodup := by
  unfold Dict.setdefault
  by_cases hc : Dict.contains d k = true
  · rwa [if_pos hc]
  · rw [if_neg hc]
    have hk : k ∉ Dict.keys d := fun hm => hc ((Dict.get?_isSome_iff d k).mpr hm)
    simp only [Dict.keys, List.map_append, List.map_cons, List.map_nil]
    refine List.nodup_append.mpr ⟨h, List.nodup_singleton _, ?_⟩
    rintro a ha b hb rfl
    exact hk (List.mem_singleton.mp hb ▸ ha)

/-- The destinations collected so far: one entry a key, each a route of the table. -/
structure Collected (d : Dict (Identity × ℤ) Route) (slots : List Route) : Prop where
  unique : (Dict.keys d).Nodup
  keys : ∀ key, key ∈ Dict.keys d ↔ ∃ route ∈ slots, destination route = key
  routes : ∀ e ∈ d, e.2 ∈ slots ∧ destination e.2 = e.1

theorem collected_step {d : Dict (Identity × ℤ) Route} {slots : List Route}
    (h : Collected d slots) (route : Route) :
    Collected (Dict.setdefault d (destination route) route) (slots++[route]) := by
  refine ⟨nodup_setdefault _ _ h.unique, fun key => ?_, fun e he => ?_⟩
  · rw [keys_setdefault, h.keys]
    simp only [List.mem_append, List.mem_singleton]
    constructor
    · rintro (⟨r, hr, hk⟩ | rfl)
      · exact ⟨r, .inl hr, hk⟩
      · exact ⟨route, .inr rfl, rfl⟩
    · rintro ⟨r, hr | rfl, hk⟩
      · exact .inl ⟨r, hr, hk⟩
      · exact .inr hk.symm
  · unfold Dict.setdefault at he
    split at he
    · obtain ⟨hs, hk⟩ := h.routes e he
      exact ⟨List.mem_append_left _ hs, hk⟩
    · rcases List.mem_append.mp he with he | he
      · obtain ⟨hs, hk⟩ := h.routes e he
        exact ⟨List.mem_append_left _ hs, hk⟩
      · rw [List.mem_singleton.mp he]
        simp

theorem collected_destinations (slots : List Route) : Collected (destinations slots) slots := by
  have hrun (rest done : List Route) (d : Dict (Identity × ℤ) Route) (h : Collected d done) :
      Collected (rest.foldl (fun d route => Dict.setdefault d (destination route) route) d)
        (done++rest) := by
    induction rest generalizing done d with
    | nil => simpa using h
    | cons route rest ih =>
      have hs := ih _ _ (collected_step h route)
      rwa [List.append_assoc, List.singleton_append] at hs
  have hnil : Collected [] [] :=
    ⟨List.nodup_nil, fun key => by simp [Dict.keys], fun e he => absurd he List.not_mem_nil⟩
  exact hrun slots [] [] hnil

/-- One route for each destination of the slot table. -/
theorem destinations_exact (slots : List Route) :
    (((destinations slots).map Prod.snd).map destination).Nodup ∧
      (∀ key, key ∈ ((destinations slots).map Prod.snd).map destination ↔
        ∃ route ∈ slots, destination route = key) ∧
      ∀ route ∈ (destinations slots).map Prod.snd, route ∈ slots := by
  have h := collected_destinations slots
  have hkeys : ((destinations slots).map Prod.snd).map destination =
      Dict.keys (destinations slots) := by
    rw [List.map_map]
    exact List.map_congr_left fun e he => (h.routes e he).2
  rw [hkeys]
  refine ⟨h.unique, h.keys, fun route hr => ?_⟩
  obtain ⟨e, he, rfl⟩ := List.mem_map.mp hr
  exact (h.routes e he).1

/-- The fields of a payload from which a topology can be built. -/
structure Fields (payload : Value) (ranges : List Value) (routeEpoch shardCount : ℤ) : Prop where
  ranges : mapGet payload ["ranges"] = .list ranges
  epoch : intField payload "route_epoch" = some routeEpoch
  count : intField payload "shard_count" = some shardCount
  epoch_nonneg : 0 ≤ routeEpoch
  count_pos : 0 < shardCount
  count_le : shardCount ≤ 1024

/-- The ranges share no slot, leave none out and give every shard a range. -/
structure Complete (shardCount : ℤ) (ranges : List Value) : Prop where
  wellFormed : ∀ item ∈ ranges, WellFormed shardCount item
  disjoint : ranges.Pairwise fun a b => ∀ s, ¬ (Covers a s ∧ Covers b s)
  cover : ∀ s < 1024, ∃ item ∈ ranges, Covers item s
  shards : ∀ k, 0 ≤ k → k < shardCount → ∃ item ∈ ranges, intField item "shard" = some k

/-- The topology of complete ranges. -/
def topology (rt : Runtime) (ranges : List Value) (routeEpoch shardCount : ℤ) : Topology :=
  let rs := slotRanges rt shardCount ranges
  let slots := (table routeSlotCount rs).filterMap id
  ⟨routeEpoch, shardCount, slots,
    rs.foldl (fun d r => Dict.set d r.value.endpointIdentity r.value.endpoint) [],
    (destinations slots).map Prod.snd⟩

theorem topology_destinations (rt : Runtime) (ranges : List Value)
    (routeEpoch shardCount : ℤ) :
    (topology rt ranges routeEpoch shardCount).routeDestinations =
      (destinations (topology rt ranges routeEpoch shardCount).slots).map Prod.snd := by
  simp only [topology]

section Ranges

variable {rt : Runtime} {shardCount : ℤ} {ranges : List Value}

theorem bounds_slotRanges : ∀ r ∈ slotRanges rt shardCount ranges,
    r.first ≤ r.last ∧ r.last < routeSlotCount := by
  intro r hr
  obtain ⟨item, -, -, -, hreads⟩ := reads_of_mem hr
  exact ⟨hreads.ordered, hreads.inTable⟩

theorem disjoint_slotRanges (h : ∀ item ∈ ranges, WellFormed shardCount item) :
    (slotRanges rt shardCount ranges).Pairwise Interval.Disjoint ↔
      ranges.Pairwise fun a b => ∀ s, ¬ (Covers a s ∧ Covers b s) := by
  rw [slotRanges, List.pairwise_filterMap]
  constructor
  · intro hp
    refine hp.imp_of_mem fun {a b} ha hb hab s hs => ?_
    obtain ⟨r, hr⟩ := rangeRoute_of_wellFormed rt (h a ha)
    obtain ⟨u, hu⟩ := rangeRoute_of_wellFormed rt (h b hb)
    exact hab r (by rw [hr]; rfl) u (by rw [hu]; rfl) s
      ⟨(covers_iff (rangeRoute_ok hr).2 s).mp hs.1, (covers_iff (rangeRoute_ok hu).2 s).mp hs.2⟩
  · intro hp
    refine hp.imp fun {a b} hab r hr u hu s hs => ?_
    have hr' : rangeRoute rt shardCount a = .ok r := by
      cases hx : rangeRoute rt shardCount a <;> simp_all [Except.toOption]
    have hu' : rangeRoute rt shardCount b = .ok u := by
      cases hx : rangeRoute rt shardCount b <;> simp_all [Except.toOption]
    exact hab s ⟨(covers_iff (rangeRoute_ok hr').2 s).mpr hs.1,
      (covers_iff (rangeRoute_ok hu').2 s).mpr hs.2⟩

theorem cover_slotRanges (h : ∀ item ∈ ranges, WellFormed shardCount item) (s : ℕ) :
    (∃ r ∈ slotRanges rt shardCount ranges, r.Contains s) ↔ ∃ item ∈ ranges, Covers item s := by
  constructor
  · rintro ⟨r, hr, hs⟩
    obtain ⟨item, hm, -, -, hreads⟩ := reads_of_mem hr
    exact ⟨item, hm, (covers_iff hreads s).mpr hs⟩
  · rintro ⟨item, hm, hs⟩
    obtain ⟨r, hr⟩ := rangeRoute_of_wellFormed rt (h item hm)
    exact ⟨r, mem_slotRanges.mpr ⟨item, hm, hr⟩, (covers_iff (rangeRoute_ok hr).2 s).mp hs⟩

theorem shard_slotRanges (h : ∀ item ∈ ranges, WellFormed shardCount item) (k : ℤ) :
    (∃ r ∈ slotRanges rt shardCount ranges, r.value.shard = k) ↔
      ∃ item ∈ ranges, intField item "shard" = some k := by
  constructor
  · rintro ⟨r, hr, rfl⟩
    obtain ⟨item, hm, -, -, hreads⟩ := reads_of_mem hr
    exact ⟨item, hm, hreads.shard⟩
  · rintro ⟨item, hm, hk⟩
    obtain ⟨r, hr⟩ := rangeRoute_of_wellFormed rt (h item hm)
    refine ⟨r, mem_slotRanges.mpr ⟨item, hm, hr⟩, ?_⟩
    have hs := (rangeRoute_ok hr).2.shard
    rw [hk] at hs
    exact (Option.some_inj.mp hs).symm

theorem routed_bounds {k : ℤ}
    (hk : ∃ r ∈ slotRanges rt shardCount ranges, r.value.shard = k) :
    0 ≤ k ∧ k < shardCount := by
  obtain ⟨r, hr, rfl⟩ := hk
  obtain ⟨item, -, -, hwf, hreads⟩ := reads_of_mem hr
  obtain ⟨shard, hs, hb⟩ := hwf.shard
  rw [hreads.shard] at hs
  cases hs
  exact hb

end Ranges

/-- The checks after the loop say that the slots are covered and the shards routed. -/
theorem finish_loop (rt : Runtime) (ranges : List Value) {routeEpoch shardCount : ℤ}
    (hpos : 0 < shardCount) (t : Topology) :
    (∃ b, ranges.foldlM (addRange rt shardCount) {} = .ok b ∧
        finish routeEpoch shardCount b = .ok t) ↔
      Complete shardCount ranges ∧ t = topology rt ranges routeEpoch shardCount := by
  have hcover (b : Building) (hwf : ∀ item ∈ ranges, WellFormed shardCount item)
      (hs : b.slots = table routeSlotCount (slotRanges rt shardCount ranges)) :
      b.slots.any Option.isNone = false ↔ ∀ s < 1024, ∃ item ∈ ranges, Covers item s := by
    rw [hs, List.any_eq_false]
    have hc := table_complete routeSlotCount (slotRanges rt shardCount ranges)
    simp only [cover_slotRanges hwf] at hc
    rw [show (1024 : ℕ) = routeSlotCount from rfl, ← hc]
    refine forall₂_congr fun c _ => ?_
    cases c <;> simp
  have hcard (b : Building) (hwf : ∀ item ∈ ranges, WellFormed shardCount item)
      (hr : b.routedShards = (slotRanges rt shardCount ranges).foldl
        (fun s r => insert r.value.shard s) ∅) :
      (b.routedShards.card : ℤ) = shardCount ↔
        ∀ k, 0 ≤ k → k < shardCount → ∃ item ∈ ranges, intField item "shard" = some k := by
    have hmem (k : ℤ) : k ∈ b.routedShards ↔
        ∃ r ∈ slotRanges rt shardCount ranges, r.value.shard = k := by
      rw [hr, mem_routedShards]
      simp
    rw [card_eq_iff _ _ hpos fun k hk => routed_bounds ((hmem k).mp hk)]
    simp only [hmem, shard_slotRanges hwf]
  constructor
  · rintro ⟨b, hb, hf⟩
    obtain ⟨hwf, hplace, hend, hrouted⟩ := (loop_ok rt shardCount ranges {} b).mp hb
    obtain ⟨hdis, hslots⟩ := (placeAll_ok _ _ bounds_slotRanges _).mp hplace
    unfold finish at hf
    split at hf
    · cases hf
    · next hany =>
      split at hf
      · cases hf
      · next hshards =>
        cases hf
        refine ⟨⟨hwf, (disjoint_slotRanges hwf).mp hdis,
          (hcover b hwf hslots).mp (Bool.eq_false_iff.mpr hany),
          (hcard b hwf hrouted).mp (not_not.mp hshards)⟩, ?_⟩
        rw [topology, ← hslots, hend]
  · rintro ⟨⟨hwf, hdis, hall, hshards⟩, rfl⟩
    have hexists (slots : List (Option Route)) (endpoints : Dict Identity Endpoint)
        (shards : Finset ℤ) : ∃ b : Building, b.slots = slots ∧ b.endpoints = endpoints ∧
          b.routedShards = shards := ⟨⟨slots, endpoints, shards⟩, rfl, rfl, rfl⟩
    obtain ⟨b, hslots, hend, hrouted⟩ := hexists
      (table routeSlotCount (slotRanges rt shardCount ranges))
      ((slotRanges rt shardCount ranges).foldl
        (fun d r => Dict.set d r.value.endpointIdentity r.value.endpoint) [])
      ((slotRanges rt shardCount ranges).foldl (fun s r => insert r.value.shard s) ∅)
    have hplace : placeAll (List.replicate routeSlotCount none)
        (slotRanges rt shardCount ranges) = .ok b.slots :=
      (placeAll_ok _ _ bounds_slotRanges _).mpr ⟨(disjoint_slotRanges hwf).mpr hdis, hslots⟩
    have hany := (hcover b hwf hslots).mpr hall
    have hc := (hcard b hwf hrouted).mpr hshards
    have hloop := loop_ok rt shardCount ranges {} b
    dsimp only at hloop
    refine ⟨b, hloop.mpr ⟨hwf, hplace, hend, hrouted⟩, ?_⟩
    rw [finish, hany, if_neg (by simp), if_neg (by simpa using hc), topology, hslots, hend]

theorem build_ok (rt : Runtime) (payload : Value) (t : Topology) :
    build rt payload = .ok t ↔ ∃ ranges routeEpoch shardCount,
      Fields payload ranges routeEpoch shardCount ∧ Complete shardCount ranges ∧
        t = topology rt ranges routeEpoch shardCount := by
  constructor
  · intro h
    unfold build at h
    split at h
    · next ranges routeEpoch shardCount hranges hepoch hcount =>
      split at h
      · cases h
      · next hguard =>
        simp only [Bool.or_eq_true, decide_eq_true_eq, not_or, not_lt, not_le] at hguard
        obtain ⟨⟨h0, hpos⟩, hle⟩ := hguard
        obtain ⟨b, hb, hf⟩ := except_bind_eq_ok h
        obtain ⟨hc, ht⟩ := (finish_loop rt ranges hpos t).mp ⟨b, hb, hf⟩
        exact ⟨ranges, routeEpoch, shardCount,
          ⟨hranges, hepoch, hcount, h0, hpos, by simpa [routeSlotCount] using hle⟩, hc, ht⟩
    · cases h
  · rintro ⟨ranges, routeEpoch, shardCount, hf, hc, ht⟩
    obtain ⟨b, hb, hfin⟩ := (finish_loop rt ranges hf.count_pos t).mpr ⟨hc, ht⟩
    have hepoch : intOrNone (mapGet payload ["route_epoch"]) = some routeEpoch := hf.epoch
    have hcount : intOrNone (mapGet payload ["shard_count"]) = some shardCount := hf.count
    have hguard : (decide (routeEpoch < 0) || decide (shardCount ≤ 0) ||
        decide ((routeSlotCount : ℤ) < shardCount)) = false := by
      have hle : shardCount ≤ (routeSlotCount : ℤ) := by simpa [routeSlotCount] using hf.count_le
      simp only [Bool.or_eq_false_iff, decide_eq_false_iff_not, not_lt, not_le]
      exact ⟨⟨hf.epoch_nonneg, hf.count_pos⟩, hle⟩
    simp only [build, hf.ranges, hepoch, hcount, hguard, Bool.false_eq_true, if_false, hb]
    exact hfin

/-- The same fields, with the ranges in another order. -/
def Reordered (p q : Value) : Prop :=
  ∃ rs us, mapGet p ["ranges"] = .list rs ∧ mapGet q ["ranges"] = .list us ∧ rs.Perm us ∧
    mapGet p ["route_epoch"] = mapGet q ["route_epoch"] ∧
    mapGet p ["shard_count"] = mapGet q ["shard_count"]

theorem Complete.perm {shardCount : ℤ} {rs us : List Value} (h : Complete shardCount rs)
    (hp : rs.Perm us) : Complete shardCount us := by
  refine ⟨fun item hm => h.wellFormed item (hp.mem_iff.mpr hm),
    hp.pairwise h.disjoint fun hab s hs => hab s ⟨hs.2, hs.1⟩, fun s hs => ?_, fun k h0 hlt => ?_⟩
  · obtain ⟨item, hm, hc⟩ := h.cover s hs
    exact ⟨item, hp.mem_iff.mp hm, hc⟩
  · obtain ⟨item, hm, hc⟩ := h.shards k h0 hlt
    exact ⟨item, hp.mem_iff.mp hm, hc⟩

theorem slots_perm (rt : Runtime) {shardCount : ℤ} (routeEpoch : ℤ) {rs us : List Value}
    (h : Complete shardCount rs) (hp : rs.Perm us) :
    (topology rt rs routeEpoch shardCount).slots =
      (topology rt us routeEpoch shardCount).slots := by
  have htable : table routeSlotCount (slotRanges rt shardCount rs) =
      table routeSlotCount (slotRanges rt shardCount us) :=
    table_perm _ ((disjoint_slotRanges h.wellFormed).mpr h.disjoint) (hp.filterMap _)
  simp only [topology, htable]

/-- Which identities have an endpoint does not show the order. -/
theorem isSome_endpoints (rt : Runtime) (ranges : List Value) (routeEpoch shardCount : ℤ)
    (identity : Identity) :
    (Dict.get? (topology rt ranges routeEpoch shardCount).endpoints identity).isSome ↔
      ∃ r ∈ slotRanges rt shardCount ranges, r.value.endpointIdentity = identity := by
  simp only [topology, get?_endpoints, Dict.get?_nil, Option.or_none, Option.isSome_map,
    List.find?_isSome, List.mem_reverse, decide_eq_true_eq]

theorem length_slots (rt : Runtime) {shardCount : ℤ} (routeEpoch : ℤ) {ranges : List Value}
    (h : Complete shardCount ranges) :
    (topology rt ranges routeEpoch shardCount).slots.length = 1024 := by
  have hcomplete : ∀ c ∈ table routeSlotCount (slotRanges rt shardCount ranges), c.isSome := by
    rw [table_complete]
    exact fun x hx => (cover_slotRanges h.wellFormed x).mpr (h.cover x hx)
  have hlen := congrArg List.length (map_some_filterMap _ hcomplete)
  rw [List.length_map, table_length, routeSlotCount] at hlen
  simp only [topology, routeSlotCount, hlen]

/-- The route of the one range that covers a slot. -/
def RouteAt (rt : Runtime) (shardCount : ℤ) (ranges : List Value) (s : ℕ) (route : Route) :
    Prop :=
  ∃ (i : ℕ) (item : Value) (r : Interval Route), ranges[i]? = some item ∧ Covers item s ∧
    (∀ (j : ℕ) other, ranges[j]? = some other → Covers other s → j = i) ∧
    rangeRoute rt shardCount item = .ok r ∧ r.value = route

theorem slot_route (rt : Runtime) {shardCount : ℤ} (routeEpoch : ℤ) {ranges : List Value}
    (h : Complete shardCount ranges) {s : ℕ} (hs : s < 1024) :
    ∃ route, (topology rt ranges routeEpoch shardCount).slots[s]? = some route ∧
      RouteAt rt shardCount ranges s route := by
  obtain ⟨item, hm, hc⟩ := h.cover s hs
  obtain ⟨i, hi⟩ := List.mem_iff_getElem?.mp hm
  obtain ⟨r, hr⟩ := rangeRoute_of_wellFormed rt (h.wellFormed item hm)
  have hin : r ∈ slotRanges rt shardCount ranges := mem_slotRanges.mpr ⟨item, hm, hr⟩
  have hdis : (slotRanges rt shardCount ranges).Pairwise Interval.Disjoint :=
    (disjoint_slotRanges h.wellFormed).mpr h.disjoint
  have hcell := table_of_contains hdis
    hin ((covers_iff (rangeRoute_ok hr).2 s).mp hc) (n := routeSlotCount) hs
  have hcomplete : ∀ c ∈ table routeSlotCount (slotRanges rt shardCount ranges), c.isSome := by
    rw [table_complete]
    exact fun x hx => (cover_slotRanges h.wellFormed x).mpr (h.cover x hx)
  refine ⟨r.value, ?_, i, item, r, hi, hc, ?_, hr, rfl⟩
  · rw [← map_some_filterMap _ hcomplete, List.getElem?_map] at hcell
    simpa [topology] using hcell
  · intro j other hj ho
    obtain ⟨hil, hie⟩ := List.getElem?_eq_some_iff.mp hi
    obtain ⟨hjl, hje⟩ := List.getElem?_eq_some_iff.mp hj
    have hpair := List.pairwise_iff_getElem.mp h.disjoint
    rcases lt_trichotomy i j with hlt | heq | hgt
    · exact absurd ⟨hie ▸ hc, hje ▸ ho⟩ (hpair i j hil hjl hlt s)
    · exact heq.symm
    · exact absurd ⟨hje ▸ ho, hie ▸ hc⟩ (hpair j i hjl hil hgt s)

theorem build_exact (rt : Runtime) (payload : Value) :
    ((∃ t, build rt payload = .ok t) ↔ ∃ ranges routeEpoch shardCount,
      Fields payload ranges routeEpoch shardCount ∧ Complete shardCount ranges) ∧
    (∀ t, build rt payload = .ok t → ∃ ranges routeEpoch shardCount,
      Fields payload ranges routeEpoch shardCount ∧
      t.slots.length = 1024 ∧
      (∀ s < 1024, ∃ route, t.slots[s]? = some route ∧ RouteAt rt shardCount ranges s route) ∧
      (t.routeDestinations.map destination).Nodup ∧
      (∀ key, key ∈ t.routeDestinations.map destination ↔
        ∃ route ∈ t.slots, destination route = key) ∧
      (∀ route ∈ t.routeDestinations, route ∈ t.slots) ∧
      ∀ identity, Dict.get? t.endpoints identity =
        ((slotRanges rt shardCount ranges).reverse.find?
          fun r => r.value.endpointIdentity = identity).map fun r => r.value.endpoint) ∧
    (∀ other, Reordered payload other →
      ((∃ t, build rt payload = .ok t) ↔ ∃ t, build rt other = .ok t) ∧
      ∀ t u, build rt payload = .ok t → build rt other = .ok u →
        t.slots = u.slots ∧ t.routeDestinations = u.routeDestinations ∧
        t.routeEpoch = u.routeEpoch ∧ t.shardCount = u.shardCount ∧
        ∀ identity, (Dict.get? t.endpoints identity).isSome =
          (Dict.get? u.endpoints identity).isSome) := by
  refine ⟨?_, ?_, ?_⟩
  · constructor
    · rintro ⟨t, ht⟩
      obtain ⟨ranges, routeEpoch, shardCount, hf, hc, -⟩ := (build_ok rt payload t).mp ht
      exact ⟨ranges, routeEpoch, shardCount, hf, hc⟩
    · rintro ⟨ranges, routeEpoch, shardCount, hf, hc⟩
      exact ⟨_, (build_ok rt payload _).mpr ⟨ranges, routeEpoch, shardCount, hf, hc, rfl⟩⟩
  · intro t ht
    obtain ⟨ranges, routeEpoch, shardCount, hf, hc, rfl⟩ := (build_ok rt payload t).mp ht
    obtain ⟨hnodup, hkeys, hroutes⟩ :=
      destinations_exact (topology rt ranges routeEpoch shardCount).slots
    refine ⟨ranges, routeEpoch, shardCount, hf, length_slots rt routeEpoch hc,
      fun s hs => slot_route rt routeEpoch hc hs, ?_⟩
    rw [topology_destinations]
    refine ⟨hnodup, hkeys, hroutes, fun identity => ?_⟩
    simp only [topology, get?_endpoints, Dict.get?_nil, Option.or_none]
  · rintro other ⟨rs, us, hrs, hus, hperm, hepoch, hcount⟩
    have hmove {ranges : List Value} {routeEpoch shardCount : ℤ}
        (hf : Fields payload ranges routeEpoch shardCount) :
        ranges = rs ∧ Fields other us routeEpoch shardCount := by
      have he := hf.ranges
      rw [hrs] at he
      cases he
      refine ⟨rfl, ⟨hus, ?_, ?_, hf.epoch_nonneg, hf.count_pos, hf.count_le⟩⟩
      · rw [intField, ← hepoch]
        exact hf.epoch
      · rw [intField, ← hcount]
        exact hf.count
    have hback {ranges : List Value} {routeEpoch shardCount : ℤ}
        (hf : Fields other ranges routeEpoch shardCount) :
        ranges = us ∧ Fields payload rs routeEpoch shardCount := by
      have he := hf.ranges
      rw [hus] at he
      cases he
      refine ⟨rfl, ⟨hrs, ?_, ?_, hf.epoch_nonneg, hf.count_pos, hf.count_le⟩⟩
      · rw [intField, hepoch]
        exact hf.epoch
      · rw [intField, hcount]
        exact hf.count
    refine ⟨⟨?_, ?_⟩, ?_⟩
    · rintro ⟨t, ht⟩
      obtain ⟨ranges, routeEpoch, shardCount, hf, hc, -⟩ := (build_ok rt payload t).mp ht
      obtain ⟨rfl, hf'⟩ := hmove hf
      exact ⟨_, (build_ok rt other _).mpr ⟨us, routeEpoch, shardCount, hf', hc.perm hperm, rfl⟩⟩
    · rintro ⟨t, ht⟩
      obtain ⟨ranges, routeEpoch, shardCount, hf, hc, -⟩ := (build_ok rt other t).mp ht
      obtain ⟨rfl, hf'⟩ := hback hf
      exact ⟨_, (build_ok rt payload _).mpr
        ⟨rs, routeEpoch, shardCount, hf', hc.perm hperm.symm, rfl⟩⟩
    · intro t u ht hu
      obtain ⟨ranges, routeEpoch, shardCount, hf, hc, rfl⟩ := (build_ok rt payload t).mp ht
      obtain ⟨ranges', routeEpoch', shardCount', hg, hd, rfl⟩ := (build_ok rt other u).mp hu
      obtain ⟨rfl, hf'⟩ := hmove hf
      have hr := hg.ranges.symm.trans hus
      have he := hg.epoch.symm.trans hf'.epoch
      have hcnt := hg.count.symm.trans hf'.count
      cases hr
      cases he
      cases hcnt
      have hslots := slots_perm rt routeEpoch hc hperm
      refine ⟨hslots, ?_, rfl, rfl, fun identity => ?_⟩
      · rw [topology_destinations, topology_destinations, hslots]
      · rw [Bool.eq_iff_iff, isSome_endpoints, isSome_endpoints]
        have hp := hperm.filterMap fun item => (rangeRoute rt shardCount item).toOption
        exact exists_congr fun r => and_congr_left fun _ => hp.mem_iff

section Sample

/-- A range of a leader at one address, under a node name of its own. -/
def sampleRange (first last shard : ℤ) (node : String) : Value :=
  .dict [(.str (lit "first_slot"), .int first), (.str (lit "last_slot"), .int last),
    (.str (lit "shard"), .int shard), (.str (lit "lane_id"), .int 1),
    (.str (lit "node"), .str (lit node)), (.str (lit "host"), .str (lit "leader.local")),
    (.str (lit "native_port"), .int 6388)]

def sampleInterval (first last : ℕ) (shard : ℤ) (node : String) : Interval Route :=
  ⟨first, last, ⟨shard, 1, (lit "leader.local", 6388), (lit "leader.local", 6388, 6388),
    ⟨lit node, lit "leader.local", 6388, none⟩, lit node⟩⟩

def samplePayload (ranges : List Value) : Value :=
  .dict [(.str (lit "route_epoch"), .int 7), (.str (lit "shard_count"), .int 2),
    (.str (lit "ranges"), .list ranges)]

def lowRange : Value := sampleRange 0 511 0 "a@cluster"

def highRange : Value := sampleRange 512 1023 1 "b@cluster"

theorem lowRange_route :
    rangeRoute Runtime.ascii 2 lowRange = .ok (sampleInterval 0 511 0 "a@cluster") := rfl

theorem highRange_route :
    rangeRoute Runtime.ascii 2 highRange = .ok (sampleInterval 512 1023 1 "b@cluster") := rfl

theorem sample_fields (ranges : List Value) : Fields (samplePayload ranges) ranges 7 2 :=
  ⟨rfl, rfl, rfl, by decide, by decide, by decide⟩

theorem sample_complete : Complete 2 [lowRange, highRange] := by
  obtain ⟨hlow, rlow⟩ := rangeRoute_ok lowRange_route
  obtain ⟨hhigh, rhigh⟩ := rangeRoute_ok highRange_route
  refine ⟨?_, ?_, ?_, ?_⟩
  · intro item hm
    simp only [List.mem_cons, List.not_mem_nil, or_false] at hm
    rcases hm with rfl | rfl
    · exact hlow
    · exact hhigh
  · simp only [List.pairwise_cons, List.mem_singleton, List.not_mem_nil, false_implies,
      implies_true, List.Pairwise.nil, and_true, forall_eq]
    rintro s ⟨hl, hh⟩
    have h1 := (covers_iff rlow s).mp hl
    have h2 := (covers_iff rhigh s).mp hh
    simp only [Interval.Contains, sampleInterval] at h1 h2
    omega
  · intro s hs
    by_cases h : s ≤ 511
    · exact ⟨lowRange, by simp, (covers_iff rlow s).mpr ⟨Nat.zero_le s, h⟩⟩
    · refine ⟨highRange, by simp, (covers_iff rhigh s).mpr ⟨?_, ?_⟩⟩
      · change 512 ≤ s
        omega
      · change s ≤ 1023
        omega
  · intro k h0 hlt
    have hk : k = 0 ∨ k = 1 := by omega
    rcases hk with rfl | rfl
    · exact ⟨lowRange, by simp, rlow.shard⟩
    · exact ⟨highRange, by simp, rhigh.shard⟩

theorem sample_reordered :
    Reordered (samplePayload [lowRange, highRange]) (samplePayload [highRange, lowRange]) :=
  ⟨_, _, rfl, rfl, List.Perm.swap _ _ _, rfl, rfl⟩

/-- Which of two node names of one address is kept depends on the order of the ranges. -/
theorem endpoints_show_the_order :
    Reordered (samplePayload [lowRange, highRange]) (samplePayload [highRange, lowRange]) ∧
      ∃ t u, build Runtime.ascii (samplePayload [lowRange, highRange]) = .ok t ∧
        build Runtime.ascii (samplePayload [highRange, lowRange]) = .ok u ∧ t ≠ u := by
  have hperm : [lowRange, highRange].Perm [highRange, lowRange] := List.Perm.swap _ _ _
  refine ⟨sample_reordered,
    topology Runtime.ascii [lowRange, highRange] 7 2,
    topology Runtime.ascii [highRange, lowRange] 7 2,
    (build_ok _ _ _).mpr ⟨_, 7, 2, sample_fields _, sample_complete, rfl⟩,
    (build_ok _ _ _).mpr ⟨_, 7, 2, sample_fields _, sample_complete.perm hperm, rfl⟩, ?_⟩
  intro he
  have hget := congrArg
    (fun t : Topology => Dict.get? t.endpoints (lit "leader.local", 6388, 6388)) he
  have hlh : slotRanges Runtime.ascii 2 [lowRange, highRange] =
      [sampleInterval 0 511 0 "a@cluster", sampleInterval 512 1023 1 "b@cluster"] := by
    rw [slotRanges_cons lowRange_route, slotRanges_cons highRange_route]
    rfl
  have hhl : slotRanges Runtime.ascii 2 [highRange, lowRange] =
      [sampleInterval 512 1023 1 "b@cluster", sampleInterval 0 511 0 "a@cluster"] := by
    rw [slotRanges_cons highRange_route, slotRanges_cons lowRange_route]
    rfl
  simp only [topology, hlh, hhl, get?_endpoints, Dict.get?_nil, Option.or_none] at hget
  revert hget
  decide

theorem sample_built :
    (∃ t, build Runtime.ascii (samplePayload [lowRange, highRange]) = .ok t) ∧
      ∃ t, build Runtime.ascii (samplePayload [highRange, lowRange]) = .ok t := by
  obtain ⟨hiff, -, horder⟩ :=
    build_exact Runtime.ascii (samplePayload [lowRange, highRange])
  have hbuilt := hiff.mpr ⟨_, _, _, sample_fields _, sample_complete⟩
  exact ⟨hbuilt, (horder _ sample_reordered).1.mp hbuilt⟩

end Sample

end FerricStore.RoutingTopology
