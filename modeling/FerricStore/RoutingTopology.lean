import FerricStore.IntervalTables
import FerricStore.Value

/-!
# The routing topology

A SHARDS response lists ranges of slots, each with its shard, its lane and the
endpoint of its leader. The topology keeps the route of every slot, the endpoint
of every identity, and one route for each destination.
-/

set_option autoImplicit false

namespace FerricStore.RoutingTopology
open Text IntervalTables

def routeSlotCount : ℕ := 1024

def maxLaneId : ℤ := 0xFFFFFFFF

/-- A field of a mapping under its text or its encoded name. -/
def entry (entries : List (Key × Value)) (key : String) : Option Value :=
  (Dict.get? entries (.str (lit key))).or (Dict.get? entries (.bytes (utf8 (lit key))))

/-- `_map_get`. -/
def mapGet (mapping : Value) (keys : List String) : Value :=
  match mapping with
  | .dict entries => (keys.findSome? (entry entries)).getD .none
  | _ => .none

/-- `_text_or_none`. -/
def textOrNone : Value → Except Err (Option Str)
  | .bytes b => (decode b).elim (.error .unicodeDecode) (fun s => .ok (some s))
  | .str s => .ok (some s)
  | _ => .ok none

/-- `_int_or_none`. -/
def intOrNone : Value → Option ℤ
  | .int n => some n
  | _ => none

/-- `_valid_port`. -/
def validPort (port : ℤ) : Bool := 1 ≤ port && port ≤ 65535

structure Endpoint where
  node : Str
  host : Str
  nativePort : ℤ
  nativeTlsPort : Option ℤ
  deriving DecidableEq, Repr

/-- The host in lower case, the port and the TLS port. -/
abbrev Identity := Str × ℤ × ℤ

structure Route where
  shard : ℤ
  laneId : ℤ
  endpointKey : Str × ℤ
  endpointIdentity : Identity
  endpoint : Endpoint
  leaderNode : Str
  deriving DecidableEq, Repr

/-- The mapping that holds the endpoint of a range. -/
def endpointSource (item : Value) : Value :=
  match mapGet item ["endpoint"] with
  | .dict entries => .dict entries
  | _ => item

/-- `text or host`. -/
def textOr (text : Option Str) (host : Str) : Str :=
  match text with
  | some s => if s = [] then host else s
  | none => host

/-- `_endpoint_from_range`. -/
def endpointFromRange (item : Value) : Except Err Endpoint := do
  let raw := endpointSource item
  let host ← textOrNone (mapGet raw ["host", "native_host"])
  let port := intOrNone (mapGet raw ["native_port"])
  let tlsPort := intOrNone (mapGet raw ["native_tls_port"])
  if host.getD [] = [] || !port.any validPort || !tlsPort.all validPort then
    .error (.ferricStore "invalid SHARDS endpoint")
  else
    let node ← textOrNone (mapGet raw ["node", "leader_node", "owner_node"])
    .ok ⟨textOr node (host.getD []), host.getD [], port.getD 0, tlsPort⟩

def endpointKey (rt : Runtime) (endpoint : Endpoint) : Except Err (Str × ℤ) :=
  if endpoint.host = [] || !validPort endpoint.nativePort then
    .error (.ferricStore "invalid FerricStore endpoint")
  else .ok (rt.lowerText endpoint.host, endpoint.nativePort)

def endpointIdentity (rt : Runtime) (endpoint : Endpoint) : Except Err Identity := do
  let key ← endpointKey rt endpoint
  if !endpoint.nativeTlsPort.all validPort then
    .error (.ferricStore "invalid FerricStore endpoint")
  else .ok (key.1, key.2, endpoint.nativeTlsPort.getD key.2)

def isMapping : Value → Bool
  | .dict _ => true
  | _ => false

def invalidRange : Err := .ferricStore "invalid SHARDS range"

/-- The bounds that a range must keep. -/
def rangeFits (shardCount first last shard laneId : ℤ) : Bool :=
  0 ≤ first && first ≤ last && last < routeSlotCount && 0 ≤ shard && shard < shardCount &&
    0 ≤ laneId && laneId ≤ maxLaneId

/-- The slots and the route that one range describes. -/
def rangeRoute (rt : Runtime) (shardCount : ℤ) (item : Value) :
    Except Err (Interval Route) := do
  if !isMapping item then .error invalidRange
  else
    let hint ← textOrNone (mapGet item ["hint"])
    if hint = some (lit "leader_unknown") then
      .error (.ferricStore "SHARDS range has no leader")
    else
      let endpoint ← endpointFromRange item
      match intOrNone (mapGet item ["first_slot"]), intOrNone (mapGet item ["last_slot"]),
        intOrNone (mapGet item ["shard"]), intOrNone (mapGet item ["lane_id"]) with
      | some first, some last, some shard, some laneId =>
        if rangeFits shardCount first last shard laneId then
          let key ← endpointKey rt endpoint
          let identity ← endpointIdentity rt endpoint
          .ok ⟨first.toNat, last.toNat, ⟨shard, laneId, key, identity, endpoint, endpoint.node⟩⟩
        else .error invalidRange
      | _, _, _, _ => .error invalidRange

/-- What the loop over the ranges has built. -/
structure Building where
  slots : List (Option Route) := List.replicate routeSlotCount none
  endpoints : Dict Identity Endpoint := []
  routedShards : Finset ℤ := ∅

def addRange (rt : Runtime) (shardCount : ℤ) (b : Building) (item : Value) :
    Except Err Building := do
  let r ← rangeRoute rt shardCount item
  match place b.slots r with
  | .error slot =>
    .error (.ferricStore ("SHARDS slot table overlaps at slot "++toString slot))
  | .ok slots =>
    .ok ⟨slots, Dict.set b.endpoints r.value.endpointIdentity r.value.endpoint,
      insert r.value.shard b.routedShards⟩

/-- The endpoint and the lane that requests go to. -/
def destination (route : Route) : Identity × ℤ := (route.endpointIdentity, route.laneId)

/-- The first route of the slot table for each destination. -/
def destinations (slots : List Route) : Dict (Identity × ℤ) Route :=
  slots.foldl (fun d route => Dict.setdefault d (destination route) route) []

structure Topology where
  routeEpoch : ℤ
  shardCount : ℤ
  slots : List Route
  endpoints : Dict Identity Endpoint
  routeDestinations : List Route
  deriving DecidableEq

/-- The checks after the loop. -/
def finish (routeEpoch shardCount : ℤ) (b : Building) : Except Err Topology :=
  if b.slots.any Option.isNone then .error (.ferricStore "SHARDS slot table is incomplete")
  else if (b.routedShards.card : ℤ) ≠ shardCount then
    .error (.ferricStore "SHARDS shard_count does not match slot table")
  else
    let slots := b.slots.filterMap id
    .ok ⟨routeEpoch, shardCount, slots, b.endpoints, (destinations slots).map Prod.snd⟩

/-- `RoutingTopology.build`. -/
def build (rt : Runtime) (payload : Value) : Except Err Topology :=
  match mapGet payload ["ranges"], intOrNone (mapGet payload ["route_epoch"]),
    intOrNone (mapGet payload ["shard_count"]) with
  | .list ranges, some routeEpoch, some shardCount =>
    if routeEpoch < 0 || shardCount ≤ 0 || routeSlotCount < shardCount then
      .error (.ferricStore "invalid SHARDS topology payload")
    else do
      let b ← ranges.foldlM (addRange rt shardCount) {}
      finish routeEpoch shardCount b
  | _, _, _ => .error (.ferricStore "invalid SHARDS topology payload")

/-!
## The ranges of a topology

A range is well formed exactly when the loop reads a route off it. The loop over
the ranges then only fills the slot table, and what it collects beside the table
is a fold over the routes.
-/

def intField (item : Value) (name : String) : Option ℤ := intOrNone (mapGet item [name])

/-- A host, a port, a TLS port if any, and a node name that can be read. -/
structure ValidEndpoint (raw : Value) : Prop where
  host : ∃ host, textOrNone (mapGet raw ["host", "native_host"]) = .ok (some host) ∧ host ≠ []
  port : ∃ port, intField raw "native_port" = some port ∧ 1 ≤ port ∧ port ≤ 65535
  tlsPort : ∀ port, intField raw "native_tls_port" = some port → 1 ≤ port ∧ port ≤ 65535
  node : ∃ node, textOrNone (mapGet raw ["node", "leader_node", "owner_node"]) = .ok node

def KnownLeader (item : Value) : Prop :=
  ∃ hint, textOrNone (mapGet item ["hint"]) = .ok hint ∧ hint ≠ some (lit "leader_unknown")

/-- What a range must be. -/
structure WellFormed (shardCount : ℤ) (item : Value) : Prop where
  mapping : isMapping item = true
  leader : KnownLeader item
  slots : ∃ first last, intField item "first_slot" = some first ∧
    intField item "last_slot" = some last ∧ 0 ≤ first ∧ first ≤ last ∧ last < 1024
  shard : ∃ shard, intField item "shard" = some shard ∧ 0 ≤ shard ∧ shard < shardCount
  lane : ∃ lane, intField item "lane_id" = some lane ∧ 0 ≤ lane ∧ lane ≤ maxLaneId
  endpoint : ValidEndpoint (endpointSource item)

/-- The slot lies in the range. -/
def Covers (item : Value) (s : ℕ) : Prop :=
  ∃ first last, intField item "first_slot" = some first ∧
    intField item "last_slot" = some last ∧ first ≤ s ∧ (s : ℤ) ≤ last

theorem any_validPort {port : Option ℤ} (h : port.any validPort = true) :
    ∃ p, port = some p ∧ 1 ≤ p ∧ p ≤ 65535 := by
  cases port with
  | none => cases h
  | some p =>
    refine ⟨p, rfl, ?_⟩
    simpa [validPort] using h

/-- What an endpoint of a range carries. -/
structure SoundEndpoint (endpoint : Endpoint) : Prop where
  host : endpoint.host ≠ []
  port : validPort endpoint.nativePort = true
  tlsPort : endpoint.nativeTlsPort.all validPort = true

theorem endpointFromRange_ok {item : Value} {endpoint : Endpoint}
    (h : endpointFromRange item = .ok endpoint) :
    ValidEndpoint (endpointSource item) ∧ SoundEndpoint endpoint := by
  unfold endpointFromRange at h
  obtain ⟨host, hhost, h⟩ := except_bind_eq_ok h
  dsimp only at h
  split at h
  · cases h
  · next hguard =>
    simp only [Bool.or_eq_true, decide_eq_true_eq, Bool.not_eq_true', not_or,
      Bool.not_eq_false] at hguard
    obtain ⟨⟨hne, hport⟩, htls⟩ := hguard
    obtain ⟨node, hnode, h⟩ := except_bind_eq_ok h
    cases h
    obtain ⟨port, hp, hlo, hhi⟩ := any_validPort hport
    cases host with
    | none => exact absurd rfl hne
    | some host =>
      refine ⟨⟨⟨host, hhost, hne⟩, ⟨port, hp, hlo, hhi⟩, ?_, ⟨node, hnode⟩⟩, ⟨hne, ?_, htls⟩⟩
      · intro tls ht
        have ht' : intOrNone (mapGet (endpointSource item) ["native_tls_port"]) = some tls := ht
        rw [ht'] at htls
        simpa [validPort] using htls
      · rw [hp]
        simpa [validPort] using ⟨hlo, hhi⟩

theorem endpointFromRange_of_valid {item : Value} (h : ValidEndpoint (endpointSource item)) :
    ∃ endpoint, endpointFromRange item = .ok endpoint := by
  obtain ⟨⟨host, hhost, hne⟩, ⟨port, hport, hlo, hhi⟩, htls, ⟨node, hnode⟩⟩ := h
  have hp : intOrNone (mapGet (endpointSource item) ["native_port"]) = some port := hport
  have ht : (intOrNone (mapGet (endpointSource item) ["native_tls_port"])).all validPort =
      true := by
    cases hx : intOrNone (mapGet (endpointSource item) ["native_tls_port"]) with
    | none => rfl
    | some tls => simpa [validPort] using htls tls hx
  have hv : validPort port = true := by simpa [validPort] using ⟨hlo, hhi⟩
  unfold endpointFromRange
  simp [hhost, hp, ht, hv, hne, hnode, bind, Except.bind]

theorem identity_of_sound (rt : Runtime) {endpoint : Endpoint} (h : SoundEndpoint endpoint) :
    endpointKey rt endpoint = .ok (rt.lowerText endpoint.host, endpoint.nativePort) ∧
      endpointIdentity rt endpoint = .ok (rt.lowerText endpoint.host, endpoint.nativePort,
        endpoint.nativeTlsPort.getD endpoint.nativePort) := by
  have hkey : endpointKey rt endpoint =
      .ok (rt.lowerText endpoint.host, endpoint.nativePort) := by
    simp [endpointKey, h.host, h.port]
  refine ⟨hkey, ?_⟩
  simp [endpointIdentity, hkey, h.tlsPort, bind, Except.bind]

theorem rangeFits_iff {shardCount first last shard lane : ℤ} :
    rangeFits shardCount first last shard lane = true ↔
      (0 ≤ first ∧ first ≤ last ∧ last < 1024) ∧ (0 ≤ shard ∧ shard < shardCount) ∧
        0 ≤ lane ∧ lane ≤ maxLaneId := by
  simp only [rangeFits, routeSlotCount, Bool.and_eq_true, decide_eq_true_eq]
  norm_num
  tauto

/-- What the interval of a range says about it. -/
structure Reads (item : Value) (r : Interval Route) : Prop where
  first : intField item "first_slot" = some (r.first : ℤ)
  last : intField item "last_slot" = some (r.last : ℤ)
  ordered : r.first ≤ r.last
  inTable : r.last < routeSlotCount
  shard : intField item "shard" = some r.value.shard
  lane : intField item "lane_id" = some r.value.laneId
  endpoint : endpointFromRange item = .ok r.value.endpoint

theorem rangeRoute_ok {rt : Runtime} {shardCount : ℤ} {item : Value} {r : Interval Route}
    (h : rangeRoute rt shardCount item = .ok r) :
    WellFormed shardCount item ∧ Reads item r := by
  unfold rangeRoute at h
  split at h
  · cases h
  · next hmap =>
    obtain ⟨hint, hhint, h⟩ := except_bind_eq_ok h
    split at h
    · cases h
    · next hleader =>
      obtain ⟨endpoint, hendpoint, h⟩ := except_bind_eq_ok h
      split at h
      · next first last shard lane hfirst hlast hshard hlane =>
        split at h
        · next hfits =>
          obtain ⟨hvalid, hsound⟩ := endpointFromRange_ok hendpoint
          obtain ⟨hkey, hidentity⟩ := identity_of_sound rt hsound
          rw [hkey] at h
          simp only [hidentity, bind, Except.bind] at h
          cases h
          obtain ⟨⟨h0, hle, hlt⟩, hs, hl⟩ := rangeFits_iff.mp hfits
          refine ⟨⟨by simpa using hmap, ⟨hint, hhint, hleader⟩,
              ⟨first, last, hfirst, hlast, h0, hle, hlt⟩, ⟨shard, hshard, hs⟩,
              ⟨lane, hlane, hl⟩, hvalid⟩, ⟨?_, ?_, ?_, ?_, hshard, hlane, hendpoint⟩⟩
          · rw [Int.toNat_of_nonneg h0]
            exact hfirst
          · rw [Int.toNat_of_nonneg (h0.trans hle)]
            exact hlast
          · exact Int.toNat_le_toNat hle
          · change last.toNat < 1024
            omega
        · cases h
      · cases h

theorem rangeRoute_of_wellFormed (rt : Runtime) {shardCount : ℤ} {item : Value}
    (h : WellFormed shardCount item) : ∃ r, rangeRoute rt shardCount item = .ok r := by
  obtain ⟨hmap, ⟨hint, hhint, hleader⟩, ⟨first, last, hfirst, hlast, h0, hle, hlt⟩,
    ⟨shard, hshard, hs⟩, ⟨lane, hlane, hl⟩, hvalid⟩ := h
  obtain ⟨endpoint, hendpoint⟩ := endpointFromRange_of_valid hvalid
  obtain ⟨hkey, hidentity⟩ := identity_of_sound rt (endpointFromRange_ok hendpoint).2
  have hfits : rangeFits shardCount first last shard lane = true :=
    rangeFits_iff.mpr ⟨⟨h0, hle, hlt⟩, hs, hl⟩
  rw [intField] at hfirst hlast hshard hlane
  unfold rangeRoute
  simp [hmap, hhint, hleader, hendpoint, hfirst, hlast, hshard, hlane, hfits, hkey, hidentity,
    bind, Except.bind]

theorem covers_iff {item : Value} {r : Interval Route} (h : Reads item r) (s : ℕ) :
    Covers item s ↔ r.Contains s := by
  constructor
  · rintro ⟨first, last, hf, hl, hfs, hsl⟩
    rw [h.first] at hf
    rw [h.last] at hl
    cases hf
    cases hl
    exact ⟨by exact_mod_cast hfs, by exact_mod_cast hsl⟩
  · rintro ⟨hfs, hsl⟩
    exact ⟨_, _, h.first, h.last, by exact_mod_cast hfs, by exact_mod_cast hsl⟩

/-- The intervals of the ranges that can be read. -/
def slotRanges (rt : Runtime) (shardCount : ℤ) (ranges : List Value) : List (Interval Route) :=
  ranges.filterMap fun item => (rangeRoute rt shardCount item).toOption

theorem slotRanges_cons {rt : Runtime} {shardCount : ℤ} {item : Value} {r : Interval Route}
    (h : rangeRoute rt shardCount item = .ok r) (ranges : List Value) :
    slotRanges rt shardCount (item::ranges) = r::slotRanges rt shardCount ranges := by
  simp [slotRanges, h, Except.toOption]

theorem mem_slotRanges {rt : Runtime} {shardCount : ℤ} {ranges : List Value}
    {r : Interval Route} : r ∈ slotRanges rt shardCount ranges ↔
      ∃ item ∈ ranges, rangeRoute rt shardCount item = .ok r := by
  rw [slotRanges, List.mem_filterMap]
  refine exists_congr fun item => and_congr_right fun _ => ?_
  cases rangeRoute rt shardCount item <;> simp [Except.toOption]

theorem reads_of_mem {rt : Runtime} {shardCount : ℤ} {ranges : List Value}
    {r : Interval Route} (h : r ∈ slotRanges rt shardCount ranges) :
    ∃ item ∈ ranges, rangeRoute rt shardCount item = .ok r ∧ WellFormed shardCount item ∧
      Reads item r := by
  obtain ⟨item, hm, hr⟩ := mem_slotRanges.mp h
  exact ⟨item, hm, hr, rangeRoute_ok hr⟩

/-- What the loop leaves, from the intervals of the ranges. -/
theorem loop_ok (rt : Runtime) (shardCount : ℤ) (ranges : List Value) (b c : Building) :
    ranges.foldlM (addRange rt shardCount) b = .ok c ↔
      (∀ item ∈ ranges, WellFormed shardCount item) ∧
      placeAll b.slots (slotRanges rt shardCount ranges) = .ok c.slots ∧
      c.endpoints = (slotRanges rt shardCount ranges).foldl
        (fun d r => Dict.set d r.value.endpointIdentity r.value.endpoint) b.endpoints ∧
      c.routedShards = (slotRanges rt shardCount ranges).foldl
        (fun s r => insert r.value.shard s) b.routedShards := by
  induction ranges generalizing b with
  | nil =>
    obtain ⟨slots, endpoints, shards⟩ := c
    have hnil : placeAll b.slots (slotRanges rt shardCount []) = .ok b.slots := rfl
    rw [hnil]
    simp only [List.foldlM_nil, slotRanges, List.filterMap_nil, List.foldl_nil,
      List.not_mem_nil, false_implies, implies_true, true_and]
    constructor
    · rintro ⟨⟩
      exact ⟨rfl, rfl, rfl⟩
    · rintro ⟨hs, rfl, rfl⟩
      cases hs
      rfl
  | cons item ranges ih =>
    rw [List.foldlM_cons]
    cases hr : rangeRoute rt shardCount item with
    | error e =>
      have hadd : addRange rt shardCount b item = .error e := by
        simp [addRange, hr, bind, Except.bind]
      rw [hadd]
      refine ⟨fun h => (by cases h), fun h => ?_⟩
      obtain ⟨r, hok⟩ := rangeRoute_of_wellFormed rt (h.1 item (by simp))
      rw [hr] at hok
      cases hok
    | ok r =>
      have hplace : placeAll b.slots (slotRanges rt shardCount (item::ranges)) =
          (place b.slots r >>= fun t => placeAll t (slotRanges rt shardCount ranges)) := by
        rw [slotRanges_cons hr]
        rfl
      rw [hplace, slotRanges_cons hr, List.foldl_cons, List.foldl_cons, List.forall_mem_cons]
      cases hp : place b.slots r with
      | error s =>
        have hadd : ∃ e, addRange rt shardCount b item = .error e := by
          simp [addRange, hr, hp, bind, Except.bind]
        obtain ⟨e, hadd⟩ := hadd
        rw [hadd]
        exact ⟨fun h => (by cases h), fun h => (by cases h.2.1)⟩
      | ok slots =>
        have hadd : addRange rt shardCount b item = .ok
            ⟨slots, Dict.set b.endpoints r.value.endpointIdentity r.value.endpoint,
              insert r.value.shard b.routedShards⟩ := by
          simp [addRange, hr, hp, bind, Except.bind]
        rw [hadd]
        refine (ih _).trans ?_
        have hwf := (rangeRoute_ok hr).1
        simp only [hwf, true_and]
        rfl

end FerricStore.RoutingTopology
