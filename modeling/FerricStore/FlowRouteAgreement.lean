import FerricStore.FlowItemMarkers

/-!
# A Flow command goes to its own partition

For every command of the option table, the keys that the router finds are the
keys of the partition fields that the builder fills, as long as the router keeps
pace with the option map. It loses pace at a `VALUE` that names a value to read:
the shared grammar gives every `VALUE` a name and a value.
-/

set_option autoImplicit false

namespace FerricStore.FlowRouting
open Text FlowOptions FlowCommands BasicCommands

section Keywords

variable (rt : Runtime)

def mapKeywords (namesOnly : Bool) (args : List Value) : List Value :=
  match flowOptionPlan rt args with
  | .ok table => optionKeywords rt namesOnly 0 args table
  | .error _ => []

/-- How many arguments stand between the parent and the items marker. -/
def itemMarkerIndex (args : List Value) : Option ℕ :=
  match flowOptionPlan rt args with
  | .ok table => match findItemMarker rt 0 (args.drop 1) (table.drop 1) with
    | .ok found => found
    | .error _ => none
  | .error _ => none

/-- The keywords of the option part of a command, its items marker last. -/
def commandKeywords (name : String) (args : List Value) : List Value :=
  if name = "FLOW.SPAWN_CHILDREN" then
    match itemMarkerIndex rt args with
    | some before =>
      mapKeywords rt false ((args.drop 1).take before)++((args.drop 1).drop before).take 1
    | none => []
  else match flowShapes.find? fun shape => shape.name = name with
    | some shape => mapKeywords rt shape.namesOnly (args.drop shape.positional.length)
    | none => []

def markerKnown (name : String) (args : List Value) : Bool :=
  if name = "FLOW.SPAWN_CHILDREN" then
    match itemMarkerIndex rt args with
    | some before => (((args.drop 1).drop before).take 1).all fun m => (token rt m).isSome
    | none => true
  else true

/-- The commands whose `VALUE` options only name values. -/
def valuesAreNames (name : String) : Bool :=
  name ∈ ["FLOW.CLAIM_DUE", "FLOW.GET", "FLOW.RECLAIM"]

/-- The arguments on which the router reads the options as the builder does. -/
structure RouterKeepsPace (name : String) (args : List Value) : Prop where
  plan : (flowOptionPlan rt args).isOk = true
  keywords : routerReads rt (valuesAreNames name) (commandKeywords rt name args) = true
  marker : markerKnown rt name args = true

end Keywords

theorem flowShapes_facts (shape : FlowShape) (h : shape ∈ flowShapes) :
    shape.namesOnly = valuesAreNames shape.name ∧ "partition_key" ∉ shape.positional ∧
      "partition_keys" ∉ shape.positional ∧
      (Dict.get? flowOptionStarts shape.name).all (· = shape.positional.length) = true := by
  revert shape
  decide +kernel

theorem positionalFields_ok {name : String} {args : List Value} {i : ℕ} {fields : List String}
    {d : Payload} (h : positionalFields name args i fields = .ok d) :
    d.map Prod.fst = fields ∧ (fields = [] ∨ i+fields.length ≤ args.length) := by
  induction fields generalizing i d with
  | nil =>
    cases h
    exact ⟨rfl, .inl rfl⟩
  | cons field fields ih =>
    obtain ⟨value, hvalue, h⟩ := except_bind_eq_ok h
    obtain ⟨others, hothers, h⟩ := except_bind_eq_ok h
    cases h
    obtain ⟨hnames, hlen⟩ := ih hothers
    have hi : i < args.length := by
      unfold requireArg at hvalue
      split at hvalue
      · next w hw => exact (List.getElem?_eq_some_iff.mp hw).1
      · cases hvalue
    refine ⟨by simp [hnames], .inr ?_⟩
    rcases hlen with rfl | hlen <;> simp <;> omega

theorem optionWalk_nodup {rt : Runtime} {namesOnly : Bool} {idx skip : ℕ} {p payload : Payload}
    {opts : List Value} {table : List Bool}
    (h : optionWalk rt namesOnly idx skip p opts table = .ok payload)
    (hp : (p.map Prod.fst).Nodup) : (payload.map Prod.fst).Nodup := by
  induction opts generalizing idx skip p table with
  | nil =>
    obtain rfl : p = payload := by simpa [optionWalk] using h
    exact hp
  | cons arg rest ih =>
    cases skip with
    | succ skip => exact ih h hp
    | zero =>
      obtain ⟨next, hnext, h⟩ := except_bind_eq_ok h
      refine ih h ?_
      rcases optionStep_cases hnext with
        ⟨-, v, more, -, rfl⟩ | ⟨-, n, more, -, -, -, rfl⟩ | ⟨-, -, hother⟩
      · exact Dict.nodup_set p _ _ hp
      · exact Dict.nodup_set p _ _ hp
      · exact hother.keeps.nodup hp

theorem collapseStates_keeps (p : Payload) : Keeps p (collapseStates p) := by
  unfold collapseStates
  split
  · exact (Keeps.set p "state" _ (by decide) (by decide)).trans
      (Keeps.pop _ "states" (by decide) (by decide))
  · exact ⟨id, rfl, rfl⟩

theorem finishFields_keeps {shape : FlowShape} {p q : Payload}
    (h : finishFields shape p = .ok q) : Keeps p q := by
  unfold finishFields at h
  split at h
  · cases h
    exact collapseStates_keeps p
  · split at h
    · split at h
      · cases h
        exact ⟨id, rfl, rfl⟩
      · cases h
    · obtain ⟨-, -, h⟩ := except_bind_eq_ok h
      cases h
      exact ⟨id, rfl, rfl⟩

theorem payloadRouteKeys_congr (rt : Runtime) (digest : Bytes → Str) (claim : Bool)
    {p q : Payload} (hkey : Dict.get? p "partition_key" = Dict.get? q "partition_key")
    (hkeys : Dict.get? p "partition_keys" = Dict.get? q "partition_keys") :
    payloadRouteKeys rt digest claim p = payloadRouteKeys rt digest claim q := by
  simp only [payloadRouteKeys, hkey, hkeys]

/-- Fields that are no partition fields do not change the keys of the options. -/
theorem get?_update_options {fields options : Payload} {k : String}
    (hn : (options.map Prod.fst).Nodup) (hk : k ∉ fields.map Prod.fst) :
    Dict.get? (Dict.update fields options) k = Dict.get? options k := by
  rw [Dict.get?_update fields options k hn, Dict.get?_eq_none_of_not_mem fields k hk,
    Option.or_none]

theorem optionMap_ok {rt : Runtime} {namesOnly : Bool} {args : List Value} {options : Payload}
    (h : optionMap rt namesOnly args = .ok options) :
    ∃ table, flowOptionPlan rt args = .ok table ∧
      optionWalk rt namesOnly 0 0 [] args table = .ok options ∧
      mapKeywords rt namesOnly args = optionKeywords rt namesOnly 0 args table := by
  obtain ⟨table, htable, h⟩ := except_bind_eq_ok h
  exact ⟨table, htable, h, by simp only [mapKeywords, htable]⟩

theorem shaped_route {rt : Runtime} (digest : Bytes → Str) (claim : Bool) {shape : FlowShape}
    {args : List Value} {payload : Payload} {table : List Bool} (hs : shape ∈ flowShapes)
    (h : shapedPayload rt shape args = .ok payload)
    (hplan : flowOptionPlan rt args = .ok table)
    (hreads : routerReads rt shape.namesOnly
      (mapKeywords rt shape.namesOnly (args.drop shape.positional.length)) = true)
    (hone : (mapKeywords rt shape.namesOnly (args.drop shape.positional.length)).countP
      (isPartitionOption rt) ≤ 1) :
    routeWalk rt digest claim 0 (args.drop shape.positional.length)
      (table.drop shape.positional.length) = payloadRouteKeys rt digest claim payload := by
  obtain ⟨fields, hfields, h⟩ := except_bind_eq_ok h
  obtain ⟨options, hoptions, hfinish⟩ := except_bind_eq_ok h
  obtain ⟨hnames, hlen⟩ := positionalFields_ok hfields
  obtain ⟨-, hkey, hkeys, -⟩ := flowShapes_facts shape hs
  obtain ⟨slice, hslice, hwalk, hwords⟩ := optionMap_ok hoptions
  have hle : shape.positional.length ≤ args.length := by
    rcases hlen with hnil | hlen
    · simp [hnil]
    · omega
  have htable := plan_drop hplan shape.positional.length hle
  rw [hslice] at htable
  rw [hwords] at hreads hone
  have hroute := routeWalk_of_optionWalk digest claim hwalk rfl rfl (Nat.zero_le _)
    (by simpa using hreads) hone (flagsAgree_self rt shape.namesOnly 0 _ slice) (by simp)
  rw [List.append_nil] at hroute
  rw [← Except.ok.inj htable, hroute]
  have hkeeps := finishFields_keeps hfinish
  have hn := optionWalk_nodup hwalk (by simp)
  exact (payloadRouteKeys_congr rt digest claim
    (hkeeps.key.trans (get?_update_options hn (hnames ▸ hkey)))
    (hkeeps.keys.trans (get?_update_options hn (hnames ▸ hkeys)))).symm

theorem spawn_route {rt : Runtime} (digest : Bytes → Str) (claim : Bool)
    {args : List Value} {payload : Payload} {table : List Bool}
    (h : flowSpawnChildrenPayload rt args = .ok payload)
    (hplan : flowOptionPlan rt args = .ok table)
    (hreads : routerReads rt false (commandKeywords rt "FLOW.SPAWN_CHILDREN" args) = true)
    (hknown : markerKnown rt "FLOW.SPAWN_CHILDREN" args = true)
    (hone : (commandKeywords rt "FLOW.SPAWN_CHILDREN" args).countP
      (isPartitionOption rt) ≤ 1) :
    routeWalk rt digest claim 0 (args.drop 1) (table.drop 1) =
      payloadRouteKeys rt digest claim payload := by
  obtain ⟨parent, hparent, h⟩ := except_bind_eq_ok h
  obtain ⟨table', htable', h⟩ := except_bind_eq_ok h
  obtain rfl : table = table' := Except.ok.inj (hplan.symm.trans htable')
  obtain ⟨found, hfound, h⟩ := except_bind_eq_ok h
  cases found with
  | none => cases h
  | some before =>
    obtain ⟨options, hoptions, h⟩ := except_bind_eq_ok h
    obtain ⟨children, -, h⟩ := except_bind_eq_ok h
    cases h
    have hle : 1 ≤ args.length := by
      unfold requireArg at hparent
      split at hparent
      · next w hw => exact (List.getElem?_eq_some_iff.mp hw).1
      · cases hparent
    obtain ⟨-, opts, marker, after, hargs, rfl, hmark⟩ := findItemMarker_split hfound
    have hindex : itemMarkerIndex rt args = some opts.length := by
      simp only [itemMarkerIndex, hplan, hfound]
    have htable := plan_drop hplan 1 hle
    rw [hargs] at hfound htable ⊢
    simp only [commandKeywords, markerKnown, if_true, hindex, hargs, List.take_left,
      List.drop_left, List.take_succ_cons, List.take_zero] at hreads hknown hone hoptions
    obtain ⟨slice, hslice, hwalk, hwords⟩ := optionMap_ok hoptions
    rw [hwords] at hreads hone
    obtain ⟨t, ht⟩ := Option.isSome_iff_exists.mp (by simpa using hknown)
    have hi : t ∈ itemMarkers := by
      rw [commandToken_of_token rt marker t ht] at hmark
      obtain ⟨s, hs, hst⟩ := List.mem_map.mp hmark
      exact lit_inj.mp hst ▸ hs
    have hflags := flagsAgree_of_marker ht hi hslice htable hfound hwalk
    rw [List.countP_append] at hone
    rw [routeWalk_of_optionWalk digest claim hwalk rfl rfl (Nat.zero_le _) (by simpa using hreads)
      (by omega) hflags (by simpa using hmark)]
    have hn := optionWalk_nodup hwalk (by simp)
    refine (payloadRouteKeys_congr rt digest claim ?_ ?_).symm
    · rw [Dict.get?_set_ne _ _ _ _ (by decide)]
      exact get?_update_options hn (by simp)
    · rw [Dict.get?_set_ne _ _ _ _ (by decide)]
      exact get?_update_options hn (by simp)

/-- The router finds the keys of the partition fields of the request, for every
command of the option table whose options it reads as the builder does. -/
theorem partition_route_of_request (rt : Runtime) (digest : Bytes → Str) (name : String)
    (start : ℕ) (args : List Value) (payload : Payload)
    (hname : Dict.get? flowOptionStarts name = some start)
    (hbuild : flowPayload rt name args = some (.ok payload))
    (hone : (commandKeywords rt name args).countP (isPartitionOption rt) ≤ 1)
    (hpace : RouterKeepsPace rt name args) :
    partitionOptionRouteKeys rt digest (name ∈ flowClaimCommands) start args =
      payloadRouteKeys rt digest (name ∈ flowClaimCommands) payload := by
  obtain ⟨hplan, hreads, hknown⟩ := hpace
  cases htable : flowOptionPlan rt args with
  | error e =>
    rw [htable] at hplan
    cases hplan
  | ok table =>
    simp only [partitionOptionRouteKeys, htable, except_ok_bind]
    by_cases hspawn : name = "FLOW.SPAWN_CHILDREN"
    · subst hspawn
      obtain rfl : 1 = start := Option.some.inj hname
      simp only [flowPayload, if_true, Option.some.injEq] at hbuild
      exact spawn_route digest _ hbuild htable hreads hknown hone
    · simp only [flowPayload, if_neg hspawn, Option.map_eq_some_iff] at hbuild
      obtain ⟨shape, hfind, hbuild⟩ := hbuild
      have hmem := List.mem_of_find?_eq_some hfind
      obtain rfl : shape.name = name := by simpa using List.find?_some hfind
      obtain ⟨hnames, -, -, hstart⟩ := flowShapes_facts shape hmem
      simp only [commandKeywords, if_neg hspawn, hfind] at hreads hone
      rw [← hnames] at hreads
      obtain rfl : start = shape.positional.length := by simpa [hname] using hstart
      exact shaped_route digest _ hmem hbuild htable hreads hone

/-- A read of one value of a flow in an automatic partition. -/
def readValue : List Value :=
  [.str (lit "f"), .str (lit "VALUE"), .str (lit "v"), .str (lit "PARTITION"),
    .str (lit "__flow_auto__:7")]

def readValuePayload : Payload :=
  [("id", .str (lit "f")), ("values", .list [.str (lit "v")]),
    ("partition_key", .str (lit "__flow_auto__:7"))]

/-- The router takes `PARTITION` for the value of `v` and sends the read to the control
path. -/
theorem value_name_hides_the_partition :
    flowPayload Runtime.ascii "FLOW.GET" readValue = some (.ok readValuePayload) ∧
      (commandKeywords Runtime.ascii "FLOW.GET" readValue).countP
        (isPartitionOption Runtime.ascii) = 1 ∧
      payloadRouteKeys Runtime.ascii (fun _ => []) false readValuePayload =
        .ok (some [lit "f:\x7bfa:7\x7d:route"]) ∧
      partitionOptionRouteKeys Runtime.ascii (fun _ => []) false 1 readValue =
        .ok (some []) := by
  decide +kernel

/-- The same read with its partition first. -/
def routedRead : List Value :=
  [.str (lit "f"), .str (lit "PARTITION"), .str (lit "__flow_auto__:7"), .str (lit "VALUE"),
    .str (lit "v")]

def routedReadPayload : Payload :=
  [("id", .str (lit "f")), ("partition_key", .str (lit "__flow_auto__:7")),
    ("values", .list [.str (lit "v")])]

theorem routedRead_keepsPace :
    (Dict.get? flowOptionStarts "FLOW.GET" = some 1 ∧
      flowPayload Runtime.ascii "FLOW.GET" routedRead = some (.ok routedReadPayload) ∧
      (commandKeywords Runtime.ascii "FLOW.GET" routedRead).countP
        (isPartitionOption Runtime.ascii) ≤ 1) ∧
    ((flowOptionPlan Runtime.ascii routedRead).isOk = true ∧
      routerReads Runtime.ascii (valuesAreNames "FLOW.GET")
        (commandKeywords Runtime.ascii "FLOW.GET" routedRead) = true ∧
      markerKnown Runtime.ascii "FLOW.GET" routedRead = true) := by
  decide +kernel

theorem routedRead_route :
    partitionOptionRouteKeys Runtime.ascii (fun _ => []) false 1 routedRead =
      payloadRouteKeys Runtime.ascii (fun _ => []) false routedReadPayload :=
  partition_route_of_request Runtime.ascii (fun _ => []) "FLOW.GET" 1 routedRead
    routedReadPayload routedRead_keepsPace.1.1 routedRead_keepsPace.1.2.1
    routedRead_keepsPace.1.2.2 ⟨routedRead_keepsPace.2.1, routedRead_keepsPace.2.2.1,
      routedRead_keepsPace.2.2.2⟩

end FerricStore.FlowRouting
