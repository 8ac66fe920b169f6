import FerricStore.CommandOptions
import FerricStore.FlowCommands

/-!
# Routing keys of Flow commands

A Flow command is routed by its logical partition. The router reads the option
list on its own: it stops at the first partition option, gives up at an items
marker, and sends a command it cannot read to the control path, which is the
empty list of keys. The digest of a partition key is a parameter.
-/

set_option autoImplicit false

namespace FerricStore.FlowRouting
open Text FlowOptions

def flowAutoPartitionPrefix : Bytes := utf8 (lit "__flow_auto__:")

def flowRouteSelectors : List String := ["AUTO", "ANY", "GLOBAL", "MIXED", "NONE"]

def flowRouteSelectorMaxBytes : ℕ := (flowRouteSelectors.map String.length).foldl max 0

def flowGlobalRouteKey : Str := lit "f:\x7bf\x7d:route"

def flowPartitionRouteCacheMaxKeyBytes : ℕ := 4096

def flowRoutingTextChunkChars : ℕ := 4096

/-- Where the options of a command begin. -/
def flowOptionStarts : Dict String ℕ :=
  [("FLOW.APPROVAL.LIST", 0), ("FLOW.ATTRIBUTE_VALUES", 2), ("FLOW.ATTRIBUTES", 1),
    ("FLOW.BUDGET.LIST", 0), ("FLOW.CANCEL", 1), ("FLOW.CLAIM_DUE", 1), ("FLOW.COMPLETE", 2),
    ("FLOW.CREATE", 1), ("FLOW.EFFECT.COMPENSATE", 1), ("FLOW.EFFECT.CONFIRM", 1),
    ("FLOW.EFFECT.FAIL", 1), ("FLOW.EFFECT.GET", 1), ("FLOW.EFFECT.RESERVE", 1),
    ("FLOW.EXTEND_LEASE", 2), ("FLOW.FAIL", 2), ("FLOW.GET", 1),
    ("FLOW.GOVERNANCE.LEDGER", 1), ("FLOW.GOVERNANCE.OVERVIEW", 0), ("FLOW.HISTORY", 1),
    ("FLOW.INFO", 1), ("FLOW.LIMIT.LIST", 0), ("FLOW.RECLAIM", 1), ("FLOW.RETRY", 2),
    ("FLOW.REWIND", 1), ("FLOW.RUN_STEPS_MANY", 0), ("FLOW.SIGNAL", 1),
    ("FLOW.SPAWN_CHILDREN", 1), ("FLOW.START_AND_CLAIM", 1), ("FLOW.STATS", 1),
    ("FLOW.STEP_CONTINUE", 4), ("FLOW.TRANSITION", 3)]

def flowClaimCommands : List String := ["FLOW.CLAIM_DUE", "FLOW.RECLAIM"]

/-- `_route_selector_token`. -/
def routeSelectorToken (rt : Runtime) : Value → Option String
  | .bytes b =>
    if b.length > flowRouteSelectorMaxBytes then none
    else flowRouteSelectors.find? fun t => utf8 (lit t) = upperBytes b
  | .str s =>
    if s.length > flowRouteSelectorMaxBytes then none
    else flowRouteSelectors.find? fun t => lit t = rt.upperText s
  | _ => none

def isDigit (b : UInt8) : Bool := 0x30 ≤ b.toNat && b.toNat ≤ 0x39

/-- `0|[1-9]\d{0,2}`, as the bucket it names. -/
def bucketOf (digits : Bytes) : Option ℕ :=
  if digits.all isDigit ∧ digits.length ≤ 3 ∧ digits ≠ [] ∧
      (digits = [0x30] ∨ digits.head? ≠ some 0x30) then
    some (digits.foldl (fun n b => 10*n+(b.toNat-0x30)) 0)
  else none

/-- The bucket of a key that spells an automatic partition. -/
def autoBucket (encoded : Bytes) : Option ℕ :=
  if flowAutoPartitionPrefix.isPrefixOf encoded then
    (bucketOf (encoded.drop flowAutoPartitionPrefix.length)).filter (· < 256)
  else none

def autoRouteKey (bucket : ℕ) : Str := lit "f:\x7bfa:"++lit (toString bucket)++lit "\x7d:route"

def digestRouteKey (digest : Bytes → Str) (encoded : Bytes) : Str :=
  lit "f:\x7bf:"++digest encoded++lit "\x7d:route"

/-- `_logical_partition_routing_key`. -/
def logicalPartitionKey (digest : Bytes → Str) (encoded : Bytes) : Str :=
  match autoBucket encoded with
  | some bucket => autoRouteKey bucket
  | none => digestRouteKey digest encoded

def encodeText (s : Str) : Except Err Bytes := (encode s).elim (.error .unicodeEncode) .ok

/-- `_logical_partition_text_routing_key`, which hashes a long text in chunks. -/
def logicalPartitionTextRoutingKey (digest : Bytes → Str) (s : Str) : Except Err Str := do
  let chunks ← (s.toChunks flowRoutingTextChunkChars).mapM encodeText
  .ok (digestRouteKey digest chunks.flatten)

/-- `flow_logical_partition_routing_key`. -/
def flowLogicalPartitionRoutingKey (digest : Bytes → Str) : Value → Except Err (Option Str)
  | .str s =>
    if s.length > flowPartitionRouteCacheMaxKeyBytes then
      (logicalPartitionTextRoutingKey digest s).map some
    else (encodeText s).map fun encoded => some (logicalPartitionKey digest encoded)
  | .bytes b => .ok (some (logicalPartitionKey digest b))
  | _ => .ok none

/-- `_claim_partition_routing_key`. -/
def claimPartitionRoutingKey (rt : Runtime) (digest : Bytes → Str) (v : Value) :
    Except Err (Option Str) :=
  if routeSelectorToken rt v = some "AUTO" ∨ routeSelectorToken rt v = some "ANY" then .ok none
  else if routeSelectorToken rt v = some "GLOBAL" then .ok (some flowGlobalRouteKey)
  else flowLogicalPartitionRoutingKey digest v

section Routes

variable (rt : Runtime) (digest : Bytes → Str) (claim : Bool)

/-- The routing key of one partition, `none` for the control path. -/
def partitionRoutingKey (v : Value) : Except Err (Option Str) :=
  if claim then claimPartitionRoutingKey rt digest v
  else flowLogicalPartitionRoutingKey digest v

def partitionRoute (v : Value) : Except Err (List Str) := do
  let key ← partitionRoutingKey rt digest claim v
  .ok key.toList

/-- The keys of several partitions; one without a key sends all to the control path. -/
def partitionsRoute (vs : List Value) : Except Err (List Str) := do
  let keys ← vs.mapM (partitionRoutingKey rt digest claim)
  .ok ((keys.mapM id).getD [])

/-- What the router does with the arguments after `PARTITIONS`. -/
def countedRoute (rest : List Value) : Except Err (List Str) := do
  let count ← nonNegativeInt rt (rest.headD .none)
  if (count.all fun n => rest.length < n+1) then .ok []
  else partitionsRoute rt digest claim (rest.tail.take (count.getD 0))

/-- The loop of `_partition_option_route_keys`; `skip` arguments still belong to the
last option. -/
def routeWalk : ℕ → List Value → List Bool → Except Err (Option (List Str))
  | _, [], _ => .ok none
  | skip+1, _::rest, valid => routeWalk skip rest valid.tail
  | 0, arg::rest, valid =>
    if token rt arg = some "PARTITION" then
      match rest with
      | [] => .ok (some [])
      | v::_ => (partitionRoute rt digest claim v).map some
    else if token rt arg = some "PARTITIONS" then (countedRoute rt digest claim rest).map some
    else if ((token rt arg).any fun t => itemMarkers.contains t) then .ok none
    else do
      let width ← optionWidth rt rest valid.tail (token rt arg)
      if (width.all fun w => rest.length+1 < w) then .ok (some [])
      else routeWalk (width.getD 1-1) rest valid.tail

/-- `_partition_option_route_keys`. -/
def partitionOptionRouteKeys (start : ℕ) (args : List Value) :
    Except Err (Option (List Str)) := do
  let valid ← flowOptionPlan rt args
  routeWalk rt digest claim 0 (args.drop start) (valid.drop start)

/-- The routing keys of the partition fields of a request. -/
def payloadRouteKeys (payload : Payload) : Except Err (Option (List Str)) :=
  match Dict.get? payload "partition_key" with
  | some v => (partitionRoute rt digest claim v).map some
  | none => match Dict.get? payload "partition_keys" with
    | some (.list vs) => (partitionsRoute rt digest claim vs).map some
    | some _ => .ok (some [])
    | none => .ok none

end Routes

/-!
## The router and the option map read one list

The router and the option map walk over the same arguments with their own idea of
how far an option reaches. They stay together as long as the router knows every
keyword the map reads, and gives it the same width; the router then stands at the
first partition option when the map does.
-/

open Text FlowOptions FlowCommands

section Walks

variable (rt : Runtime) (namesOnly : Bool)

/-- The arguments that the option map reads as keywords. -/
def optionKeywords : ℕ → List Value → List Bool → List Value
  | _, [], _ => []
  | skip+1, _::rest, valid => optionKeywords skip rest valid.tail
  | 0, arg::rest, valid =>
    arg::optionKeywords (optionSpan rt namesOnly (rt.commandToken arg) rest valid.tail-1) rest
      valid.tail

def isPartitionOption (v : Value) : Bool :=
  rt.commandToken v = lit "PARTITION" ∨ rt.commandToken v = lit "PARTITIONS"

/-- The router keeps pace with the map: up to the first partition option every
keyword is one the grammar knows, none is a `VALUE` that the command reads as a
bare name, and no partition option follows an items marker. -/
def routerReads : List Value → Bool
  | [] => true
  | keyword::keywords => match token rt keyword with
    | none => false
    | some t =>
      if t = "PARTITION" ∨ t = "PARTITIONS" then true
      else if t ∈ itemMarkers then keywords.all fun k => !isPartitionOption rt k
      else !(namesOnly && t = "VALUE") && routerReads keywords

/-- Both analyses take each `PAYLOAD` of the walk for a flag, or neither does. -/
def FlagsAgree (tail : List Value) : ℕ → List Value → List Bool → List Bool → Prop
  | _, [], _, _ => True
  | skip+1, _::rest, slice, full => FlagsAgree tail skip rest slice.tail full.tail
  | 0, arg::rest, slice, full =>
    (rt.commandToken arg = lit "PAYLOAD" →
      payloadIsFlag rt full.tail (rest++tail) = payloadIsFlag rt slice.tail rest) ∧
    FlagsAgree tail (optionSpan rt namesOnly (rt.commandToken arg) rest slice.tail-1) rest
      slice.tail full.tail

end Walks

theorem flagsAgree_self (rt : Runtime) (namesOnly : Bool) (skip : ℕ) (opts : List Value)
    (table : List Bool) : FlagsAgree rt namesOnly [] skip opts table table := by
  induction opts generalizing skip table with
  | nil => trivial
  | cons arg rest ih =>
    cases skip with
    | zero => exact ⟨fun _ => by rw [List.append_nil], ih _ _⟩
    | succ skip => exact ih skip table.tail

theorem isPartitionOption_iff (rt : Runtime) (v : Value) : isPartitionOption rt v = true ↔
    rt.commandToken v = lit "PARTITION" ∨ rt.commandToken v = lit "PARTITIONS" := by
  simp [isPartitionOption]

/-- Away from the two places where they differ, the router gives a keyword the width
that the map gives it. -/
theorem optionWidth_eq_span {rt : Runtime} {namesOnly : Bool} {t : String}
    {rest rest' : List Value} {slice full : List Bool} (hitems : t ∉ itemMarkers)
    (hparts : t ≠ "PARTITIONS") (hvalue : ¬ (namesOnly = true ∧ t = "VALUE"))
    (hflag : t = "PAYLOAD" → payloadIsFlag rt full rest' = payloadIsFlag rt slice rest) :
    optionWidth rt rest' full (some t) =
      .ok (some (optionSpan rt namesOnly (lit t) rest slice)) := by
  have hi : ¬ (t = "ITEMS" ∨ t = "ITEMS_EXT") := by
    rintro (rfl | rfl) <;> exact hitems (by decide)
  have hthree : lit t ∈ flowThreeValueOptions.map lit ↔ t ∈ flowThreeValueOptions :=
    List.mem_map_of_injective fun _ _ => lit_inj.mp
  simp only [optionWidth, optionSpan, lit_inj, if_neg hi, if_neg hparts, hthree]
  by_cases hn : t = "NOPAYLOAD"
  · simp [hn]
  by_cases hp : t = "PAYLOAD"
  · rw [hflag hp]
    cases hf : payloadIsFlag rt slice rest <;> simp [hp, fixedWidth, flowThreeValueOptions]
  by_cases hv : t = "VALUE"
  · have hno : namesOnly = false := by
      cases namesOnly with
      | true => exact (hvalue ⟨rfl, hv⟩).elim
      | false => rfl
    simp [hv, hno, fixedWidth, flowThreeValueOptions]
  · simp [hn, hp, hv, fixedWidth]

/-- The map leaves the partition fields alone when it reads no partition option. -/
theorem optionWalk_keeps {rt : Runtime} {namesOnly : Bool} {idx skip : ℕ} {p payload : Payload}
    {opts : List Value} {table : List Bool}
    (h : optionWalk rt namesOnly idx skip p opts table = .ok payload)
    (hk : ∀ k ∈ optionKeywords rt namesOnly skip opts table, isPartitionOption rt k = false) :
    Keeps p payload := by
  induction opts generalizing idx skip p table with
  | nil =>
    simp only [optionWalk] at h
    cases h
    exact ⟨id, rfl, rfl⟩
  | cons arg rest ih =>
    cases skip with
    | succ skip => exact ih h hk
    | zero =>
      obtain ⟨next, hnext, h⟩ := except_bind_eq_ok h
      simp only [optionKeywords, List.mem_cons, forall_eq_or_imp] at hk
      have harg := mt (isPartitionOption_iff rt arg).mpr (by simp [hk.1])
      rcases optionStep_cases hnext with ⟨hp, -⟩ | ⟨hp, -⟩ | ⟨-, -, hother⟩
      · exact (harg (.inl hp)).elim
      · exact (harg (.inr hp)).elim
      · rw [hother.span] at h
        exact hother.keeps.trans (ih h hk.2)

theorem payloadRouteKeys_none (rt : Runtime) (digest : Bytes → Str) (claim : Bool)
    (payload : Payload) (hkey : Dict.get? payload "partition_key" = none)
    (hkeys : Dict.get? payload "partition_keys" = none) :
    payloadRouteKeys rt digest claim payload = .ok none := by
  simp only [payloadRouteKeys, hkey, hkeys]

theorem routeWalk_partition {rt : Runtime} (digest : Bytes → Str) (claim : Bool) {arg v : Value}
    {more : List Value} (table : List Bool) (h : token rt arg = some "PARTITION") :
    routeWalk rt digest claim 0 (arg::v::more) table =
      (partitionRoute rt digest claim v).map some := by
  simp only [routeWalk, h, if_true]

theorem routeWalk_partitions {rt : Runtime} (digest : Bytes → Str) (claim : Bool)
    {arg : Value} {n : ℤ} {more tail : List Value} (table : List Bool)
    (h : token rt arg = some "PARTITIONS") (hn : 0 ≤ n) (hle : n.toNat ≤ more.length) :
    routeWalk rt digest claim 0 (arg::(.int n::more++tail)) table =
      (partitionsRoute rt digest claim (more.take n.toNat)).map some := by
  have hcount : nonNegativeInt rt (.int n) = .ok (some n.toNat) := by
    simp [nonNegativeInt, Runtime.toInt, hn]
  have htake : (more++tail).take n.toNat = more.take n.toNat :=
    List.take_append_of_le_length hle
  have hroom : ¬ (more++tail).length+1 < n.toNat+1 := by
    rw [List.length_append]
    omega
  simp only [routeWalk, h, Option.some.injEq, String.reduceEq, if_false, if_true,
    List.cons_append, countedRoute, List.headD_cons, hcount, except_ok_bind, Option.all_some,
    List.length_cons, hroom, decide_false, Bool.false_eq_true, List.tail_cons,
    Option.getD_some, htake]

theorem routeWalk_marker {rt : Runtime} (digest : Bytes → Str) (claim : Bool) {arg : Value}
    {t : String} (rest : List Value) (table : List Bool) (h : token rt arg = some t)
    (ht : t ∈ itemMarkers) : routeWalk rt digest claim 0 (arg::rest) table = .ok none := by
  have hp : t ≠ "PARTITION" := by
    rintro rfl
    exact absurd ht (by decide)
  have hps : t ≠ "PARTITIONS" := by
    rintro rfl
    exact absurd ht (by decide)
  simp [routeWalk, h, hp, hps, ht]

theorem routeWalk_step {rt : Runtime} (digest : Bytes → Str) (claim : Bool) {arg : Value}
    {t : String} {rest : List Value} {table : List Bool} {w : ℕ} (h : token rt arg = some t)
    (hp : t ≠ "PARTITION") (hps : t ≠ "PARTITIONS") (hi : t ∉ itemMarkers)
    (hw : optionWidth rt rest table.tail (some t) = .ok (some w)) (hle : w ≤ rest.length+1) :
    routeWalk rt digest claim 0 (arg::rest) table =
      routeWalk rt digest claim (w-1) rest table.tail := by
  have hroom : ¬ rest.length+1 < w := by omega
  simp [routeWalk, h, hp, hps, hi, hw, except_ok_bind, hroom]

theorem routerReads_cons {rt : Runtime} {namesOnly : Bool} {keyword : Value}
    {keywords : List Value} (h : routerReads rt namesOnly (keyword::keywords) = true) :
    ∃ t, token rt keyword = some t ∧ (t = "PARTITION" ∨ t = "PARTITIONS" ∨
      (t ≠ "PARTITION" ∧ t ≠ "PARTITIONS" ∧
        ((t ∈ itemMarkers ∧ ∀ k ∈ keywords, isPartitionOption rt k = false) ∨
          (t ∉ itemMarkers ∧ ¬ (namesOnly = true ∧ t = "VALUE") ∧
            routerReads rt namesOnly keywords = true)))) := by
  simp only [routerReads] at h
  split at h
  · cases h
  · next t ht =>
    refine ⟨t, ht, ?_⟩
    by_cases hp : t = "PARTITION"
    · exact .inl hp
    by_cases hps : t = "PARTITIONS"
    · exact .inr (.inl hps)
    rw [if_neg (by simp [hp, hps])] at h
    refine .inr (.inr ⟨hp, hps, ?_⟩)
    by_cases hi : t ∈ itemMarkers
    · rw [if_pos hi] at h
      exact .inl ⟨hi, by simpa using h⟩
    · rw [if_neg hi] at h
      simp only [Bool.and_eq_true, Bool.not_eq_true', Bool.and_eq_false_iff,
        decide_eq_false_iff_not] at h
      refine .inr ⟨hi, ?_, h.2⟩
      rintro ⟨hn, hv⟩
      rcases h.1 with h | h
      · rw [hn] at h
        cases h
      · exact h hv

/-- A router that keeps pace finds the keys of the fields that the map fills. -/
theorem routeWalk_of_optionWalk {rt : Runtime} (digest : Bytes → Str) (claim : Bool)
    {namesOnly : Bool} {tail : List Value} {idx skip : ℕ} {p payload : Payload}
    {opts : List Value} {slice full : List Bool}
    (h : optionWalk rt namesOnly idx skip p opts slice = .ok payload)
    (hkey : Dict.get? p "partition_key" = none) (hkeys : Dict.get? p "partition_keys" = none)
    (hskip : skip ≤ opts.length)
    (hreads : routerReads rt namesOnly
      (optionKeywords rt namesOnly skip opts slice++tail.take 1) = true)
    (hone : (optionKeywords rt namesOnly skip opts slice).countP (isPartitionOption rt) ≤ 1)
    (hflags : FlagsAgree rt namesOnly tail skip opts slice full)
    (hmarker : ∀ m ∈ tail.head?, rt.commandToken m ∈ itemMarkers.map lit) :
    routeWalk rt digest claim skip (opts++tail) full =
      payloadRouteKeys rt digest claim payload := by
  induction opts generalizing idx skip p slice full with
  | nil =>
    obtain rfl : skip = 0 := by simpa using hskip
    obtain rfl : p = payload := by simpa [optionWalk] using h
    rw [payloadRouteKeys_none rt digest claim p hkey hkeys, List.nil_append]
    cases tail with
    | nil => rfl
    | cons m after =>
      obtain ⟨t, ht, -⟩ := routerReads_cons hreads
      have hm := hmarker m rfl
      rw [commandToken_of_token rt m t ht] at hm
      obtain ⟨s, hs, hst⟩ := List.mem_map.mp hm
      exact routeWalk_marker digest claim after full ht (lit_inj.mp hst ▸ hs)
  | cons arg rest ih =>
    cases skip with
    | succ skip =>
      exact ih h hkey hkeys (by simpa using hskip) hreads hone hflags
    | zero =>
      obtain ⟨next, hnext, h⟩ := except_bind_eq_ok h
      obtain ⟨hflag, hflags⟩ := hflags
      simp only [optionKeywords, List.cons_append] at hreads hone
      obtain ⟨t, ht, hcases⟩ := routerReads_cons hreads
      have htoken := commandToken_of_token rt arg t ht
      have hspan := optionStep_span hnext
      have hrest (hp : isPartitionOption rt arg = true) :
          ∀ k ∈ optionKeywords rt namesOnly (next.2-1) rest slice.tail,
            isPartitionOption rt k = false := by
        intro k hk
        rw [List.countP_cons_of_pos hp] at hone
        by_contra hkp
        have hpos := List.countP_pos_iff.mpr ⟨k, hspan ▸ hk, by simpa using hkp⟩
        omega
      rw [htoken] at hnext hflag
      rcases optionStep_cases hnext with
        ⟨hopt, v, more, rfl, rfl⟩ | ⟨hopt, n, more, rfl, hn, hle, rfl⟩ | ⟨hp, hps, hother⟩
      · obtain rfl := lit_inj.mp hopt
        have hkeeps := optionWalk_keeps h
          (hrest ((isPartitionOption_iff rt arg).mpr (.inl htoken)))
        have hset : Dict.get? payload "partition_key" = some v := by
          rw [hkeeps.key, Dict.get?_set, if_pos rfl]
        rw [List.cons_append, List.cons_append, routeWalk_partition digest claim full ht]
        simp only [payloadRouteKeys, hset]
      · obtain rfl := lit_inj.mp hopt
        have hkeeps := optionWalk_keeps h
          (hrest ((isPartitionOption_iff rt arg).mpr (.inr htoken)))
        have hnone : Dict.get? payload "partition_key" = none := by
          rw [hkeeps.key, Dict.get?_set_ne _ _ _ _ (by decide), hkey]
        have hset : Dict.get? payload "partition_keys" = some (.list (more.take n.toNat)) := by
          rw [hkeeps.keys, Dict.get?_set, if_pos rfl]
        rw [List.cons_append, routeWalk_partitions digest claim full ht hn hle]
        simp only [payloadRouteKeys, hnone, hset]
      · have hp : t ≠ "PARTITION" := fun he => hp (he ▸ rfl)
        have hps : t ≠ "PARTITIONS" := fun he => hps (he ▸ rfl)
        rcases hcases with he | he | ⟨-, -, ⟨hi, hno⟩ | ⟨hi, hv, hreads⟩⟩
        · exact (hp he).elim
        · exact (hps he).elim
        · rw [← htoken] at hother
          rw [hother.span] at h
          have hkeeps := hother.keeps.trans (optionWalk_keeps h fun k hk =>
            hno k (List.mem_append_left _ hk))
          rw [payloadRouteKeys_none rt digest claim payload (hkeeps.key.trans hkey)
            (hkeeps.keys.trans hkeys)]
          exact routeWalk_marker digest claim _ full ht hi
        · have hwidth : optionWidth rt (rest++tail) full.tail (some t) =
              .ok (some (optionSpan rt namesOnly (lit t) rest slice.tail)) :=
            optionWidth_eq_span hi hps hv fun he => hflag (he ▸ rfl)
          rw [← hother.span] at hwidth
          have hinside := hother.inside
          rw [List.cons_append, routeWalk_step digest claim ht hp hps hi hwidth
            (by rw [List.length_append]; omega)]
          rw [← htoken] at hother
          rw [hother.span] at h hinside ⊢
          rw [List.countP_cons] at hone
          exact ih h (hother.keeps.key.trans hkey) (hother.keeps.keys.trans hkeys) (by omega)
            hreads (by omega) hflags

end FerricStore.FlowRouting
