import FerricStore.ManyGroups

/-!
# The arguments of creating many flows

Creating many flows chooses one of three partition selectors and one of three layouts
of its items. Items with values, references or a time limit of their own, or without a
partition among items that have one, are written in an extended layout with counted
parts; a field that an item leaves out is a dash there.
-/

set_option autoImplicit false

namespace FerricStore

theorem Dict.nodup_update {κ β : Type} [DecidableEq κ] (d e : Dict κ β)
    (h : (d.map Prod.fst).Nodup) : ((Dict.update d e).map Prod.fst).Nodup := by
  induction e generalizing d with
  | nil => exact h
  | cons x e ih => exact ih _ (Dict.nodup_set d x.1 x.2 h)

namespace CreateManyArguments
open Text FlowOptions FlowCommands MutationArguments ManyArguments

/-- `_merge_named_map`. -/
def mergeNamedMap {β : Type} (base item : Named β) : Named β :=
  ⟨Dict.update base.val item.val, Dict.nodup_update _ _ base.property⟩

structure CreateItem where
  id : Str
  payload : Value := .none
  partitionKey : Option PartitionKey := none
  values : Named Value := Named.empty
  valueRefs : Named Str := Named.empty
  attributes : Named Value := Named.empty
  stateMeta : Named Value := Named.empty
  maxActiveMs : Value := .none

structure CreateManyCall where
  partitionKey : Option PartitionKey := none
  items : List CreateItem
  type : Str
  state : Str := lit "queued"
  runAtMs : Option ℤ := none
  nowMs : Option ℤ := none
  priority : Option ℤ := none
  idempotent : Option Bool := none
  independent : Option Bool := none
  returnOkOnSuccess : Bool := false
  retentionTtlMs : Option ℤ := none
  maxActiveMs : Value := .none
  values : Named Value := Named.empty
  valueRefs : Named Str := Named.empty
  attributes : Option (Named Value) := none
  stateMeta : Option (Named Value) := none

/-- `BatchValueMatcher(reference).matches`, a comparison of fingerprints. -/
abbrev Matcher := Named Value → Option (Named Value) → Bool

section Shared

/-- `value or None` of a mapping. -/
def populated (d : Named Value) : Option (Named Value) := if d.val = [] then none else some d

/-- The body of `_shared_create_many_attributes` and `_shared_create_many_state_meta`. -/
def sharedMap (agrees : Matcher) (all : List (Option (Named Value)))
    (given : Option (Named Value)) : Except Err (Option (Named Value)) :=
  match given with
  | some reference =>
    if all.any fun d => d.isSome && !agrees reference d then .error .valueError
    else .ok (some reference)
  | none => match all.filterMap id with
    | [] => .ok none
    | first::_ =>
      if all.any fun d => !agrees first d then .error .valueError
      else .ok (some first)

/-- `_shared_create_many_attributes`. -/
def sharedCreateManyAttributes (agrees : Matcher) (c : CreateManyCall) :
    Except Err (Option (Named Value)) :=
  sharedMap agrees (c.items.map fun i => populated i.attributes) c.attributes

/-- `_shared_create_many_state_meta`. -/
def sharedCreateManyStateMeta (agrees : Matcher) (c : CreateManyCall) :
    Except Err (Option (Named Value)) :=
  sharedMap agrees (c.items.map fun i => populated i.stateMeta) c.stateMeta

end Shared

section Builder

variable (rt : Runtime) (codec : Codec) (clock : ℤ) (c : CreateManyCall)

def CreateManyCall.now : ℤ := c.nowMs.getD clock

/-- `mixed`: no batch key, and an item with one. -/
def CreateManyCall.mixed : Bool := c.partitionKey = none && c.items.any (·.partitionKey ≠ none)

def CreateManyCall.hasItemMaxActive : Bool := c.items.any fun i => !i.maxActiveMs.isNone

/-- `_has_named_item_values`. -/
def CreateManyCall.hasNamedItemValues : Bool :=
  c.items.any fun i => i.values.val ≠ [] || i.valueRefs.val ≠ []

def CreateManyCall.extended : Bool :=
  c.hasNamedItemValues || c.hasItemMaxActive ||
    (c.mixed && c.items.any (·.partitionKey = none))

/-- `wire_partition`. -/
def CreateManyCall.wire : Value :=
  if c.mixed then word "MIXED" else (c.partitionKey.map PartitionKey.value).getD (word "AUTO")

/-- `normalize_optional_max_active_ms`. -/
def normalizeMaxActive (v : Value) : Except Err Value :=
  (normalizeOptionalMaxActiveMs rt v).mapError fun _ => .valueError

/-- `_append_named_counts`. -/
def appendNamedCounts (values : Named Value) (refs : Named Str) : List Value :=
  .int values.val.length::((encoded codec values).flatMap (fun e => [.str e.1, e.2])++
    .int refs.val.length::(references refs).flatMap fun e => [.str e.1, e.2])

/-- A field that an item may leave out. -/
def orDash (v : Option Value) : Value := v.getD (word "-")

/-- The time limit of an item, written when an item of the call has one. -/
def itemLimitArgs (item : CreateItem) : Except Err (List Value) :=
  if c.hasItemMaxActive then do
    let limit ← normalizeMaxActive rt item.maxActiveMs
    .ok [orDash (if limit.isNone then none else some limit)]
  else .ok []

/-- One item of the extended layouts. -/
def extendedItemArgs (item : CreateItem) : Except Err (List Value) := do
  let partition := if c.mixed then item.partitionKey.map PartitionKey.value else none
  let limit ← itemLimitArgs rt c item
  .ok ([Value.str item.id, orDash partition, .bytes (codec item.payload)]++(limit++
    appendNamedCounts codec (mergeNamedMap c.values item.values)
      (mergeNamedMap c.valueRefs item.valueRefs)))

/-- One item of the plain layout. -/
def plainItemArgs (item : CreateItem) : Except Err (List Value) :=
  if c.mixed then
    match item.partitionKey with
    | none => .error .valueError
    | some key => .ok [.str item.id, key.value, .bytes (codec item.payload)]
  else .ok [.str item.id, .bytes (codec item.payload)]

/-- The items with what stands before them. -/
def createItemsArgs : Except Err (List Value) :=
  if c.extended then do
    let items ← c.items.mapM (extendedItemArgs rt codec c)
    .ok (word (if c.hasItemMaxActive then "ITEMS_EXT_V2" else "ITEMS_EXT")::
      .int c.items.length::items.flatten)
  else do
    let items ← c.items.mapM (plainItemArgs codec c)
    .ok (appendEntries "VALUE" (encoded codec c.values)++
      (appendEntries "VALUE_REF" (references c.valueRefs)++(word "ITEMS"::items.flatten)))

/-- `_create_many_args`. -/
def createManyArgs (agrees : Matcher) : Except Err (List Value) := do
  let attributes ← sharedCreateManyAttributes agrees c
  let stateMeta ← sharedCreateManyStateMeta agrees c
  if c.partitionKey ≠ none ∧
      (c.items.any fun i => i.partitionKey ≠ none && i.partitionKey ≠ c.partitionKey) then
    .error .valueError
  else do
    let priority ← appendPriority c.priority
    let limit ← normalizeMaxActive rt c.maxActiveMs
    let items ← createItemsArgs rt codec c
    .ok (word "FLOW.CREATE_MANY"::c.wire::([word "TYPE", .str c.type, word "STATE",
        .str c.state, word "NOW", .int (c.now clock)]++
      (intArgs "RUN_AT" (some (c.runAtMs.getD (c.now clock)))++(priority++
        (appendBool "IDEMPOTENT" c.idempotent++(appendBool "INDEPENDENT" c.independent++
          (append "RETURN" (if c.returnOkOnSuccess then some (word "OK_ON_SUCCESS") else none)++
            (intArgs "RETENTION_TTL_MS" c.retentionTtlMs++
              (append "MAX_ACTIVE_MS" (if limit.isNone then none else some limit)++
                (appendEntries "ATTRIBUTE" (attributes.getD Named.empty).val++
                  (appendEntries "STATE_META" (stateMeta.getD Named.empty).val++
                    items)))))))))))

end Builder

section Meaning

/-- One created flow as the server acts on it. -/
structure CreatedItem where
  id : Value
  payload : Value
  partition : Option Value
  values : Option Value
  valueRefs : Option Value
  maxActiveMs : Option Value
  deriving DecidableEq, Repr

/-- An item of a request; what it does not name is of the batch. -/
def createdItem (batch : Payload) : Value → Option CreatedItem
  | .list [id, payload] => some ⟨id, payload, Dict.get? batch "partition_key",
      Dict.get? batch "values", Dict.get? batch "value_refs", none⟩
  | .list [id, partition, payload] => some ⟨id, payload, some partition,
      Dict.get? batch "values", Dict.get? batch "value_refs", none⟩
  | .dict fields => do
    let id ← Dict.get? fields (.str (lit "id"))
    let payload ← Dict.get? fields (.str (lit "payload"))
    some ⟨id, payload,
      (Dict.get? fields (.str (lit "partition_key"))).or (Dict.get? batch "partition_key"),
      (Dict.get? fields (.str (lit "values"))).or (Dict.get? batch "values"),
      (Dict.get? fields (.str (lit "value_refs"))).or (Dict.get? batch "value_refs"),
      Dict.get? fields (.str (lit "max_active_ms"))⟩
  | _ => none

def createdItems (payload : Payload) : Option (List CreatedItem) :=
  match Dict.get? payload "items" with
  | some (.list items) => items.mapM (createdItem payload)
  | _ => none

/-- A map, absent when it is empty. -/
def mapValue (entries : Dict Str Value) : Option Value :=
  if entries = [] then none else some (.dict (entries.map fun e => (.str e.1, e.2)))

/-- The time limit of an item, if it is set. -/
def meantLimit (rt : Runtime) (v : Value) : Option Value :=
  (normalizeMaxActive rt v).toOption.filter fun limit => !limit.isNone

/-- The flow that an item of the call means. -/
def meantItem (rt : Runtime) (codec : Codec) (c : CreateManyCall) (i : CreateItem) :
    CreatedItem where
  id := .str i.id
  payload := .bytes (codec i.payload)
  partition := (i.partitionKey.or c.partitionKey).map PartitionKey.value
  values := mapValue (encoded codec (mergeNamedMap c.values i.values))
  valueRefs := mapValue (references (mergeNamedMap c.valueRefs i.valueRefs))
  maxActiveMs := meantLimit rt i.maxActiveMs

end Meaning

end CreateManyArguments

end FerricStore
