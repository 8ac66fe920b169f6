import FerricStore.FlowCommands

/-!
# Requests with many items

A command for many flows names a partition or a selector, gives its options, and
lists its items after a marker. The width of an item is not written: it follows from
the partition argument, so the reader cuts the list by what that argument spells.
-/

set_option autoImplicit false

namespace FerricStore.FlowManyPayloads
open Text BasicCommands FlowOptions FlowCommands

/-- `_find_item_token`. -/
def findItemToken (rt : Runtime) (args : List Value) (start : ℕ) : Except Err ℕ := do
  let valid ← flowOptionPlan rt args
  let found ← findItemMarker rt 0 (args.drop start) (valid.drop start)
  match found with
  | some before => .ok (start+before)
  | none => invalid (lit "FLOW many command requires ITEMS or ITEMS_EXT")

/-- What the three readers do first: the selector, the options and the index of the
marker. -/
def manyOptions (rt : Runtime) (name : String) (args : List Value) :
    Except Err (Str × Payload × ℕ) := do
  let wire ← requireArg args 0 name
  let wirePartition ← rt.text wire
  let itemToken ← findItemToken rt args 1
  let options ← optionMap rt false ((args.take itemToken).drop 1)
  .ok (rt.commandToken (.str wirePartition), options, itemToken)

/-- `count` slices of one width. -/
def slices (width : ℕ) : ℕ → List Value → List (List Value)
  | 0, _ => []
  | count+1, values => values.take width::slices width count (values.drop width)

/-- The slices of a list whose length is a multiple of the width. -/
def cut (width : ℕ) (message : String) (values : List Value) :
    Except Err (List (List Value)) :=
  if values.length % width ≠ 0 then invalid (lit message)
  else .ok (slices width (values.length/width) values)

/-- `_parse_claimed_items`. -/
def parseClaimedItems (values : List Value) (mixed : Bool) : Except Err (List Value) := do
  let rows ← cut (if mixed then 4 else 3) "FLOW.*_MANY ITEMS has wrong claimed item width" values
  .ok (rows.map .list)

def fencedItem (mixed includeLease : Bool) (row : List Value) : Value :=
  .dict ([entry "id" (row.getD 0 .none),
      entry "fencing_token" (row.getD (if mixed then 2 else 1) .none)]++
    ((if mixed then [entry "partition_key" (row.getD 1 .none)] else [])++
      (if includeLease then optionalEntry "lease_token" (row.getD (if mixed then 3 else 2) .none)
        else [])))

/-- `_parse_fenced_items`. -/
def parseFencedItems (values : List Value) (mixed includeLease : Bool) :
    Except Err (List Value) := do
  let width := if includeLease then (if mixed then 4 else 3) else (if mixed then 3 else 2)
  let rows ← cut width "FLOW.*_MANY ITEMS has wrong fenced item width" values
  .ok (rows.map (fencedItem mixed includeLease))

/-- `_parse_create_items`. -/
def parseCreateItems (values : List Value) (mixed : Bool) : Except Err (List Value) := do
  let rows ← cut (if mixed then 3 else 2) "FLOW.CREATE_MANY ITEMS has wrong item width" values
  .ok (rows.map .list)

/-- The partition of an extended item. In a mixed batch the placeholder is a key. -/
def partitionEntry (mixed : Bool) (partition : Value) : List (Key × Value) :=
  if mixed then [entry "partition_key" partition] else optionalEntry "partition_key" partition

def createHead (mixed : Bool) : List Value → Option (List (Key × Value) × List Value)
  | id::partition::payload::rest =>
    some ([entry "id" id, entry "payload" payload]++partitionEntry mixed partition, rest)
  | _ => none

def createHeadV2 (mixed : Bool) : List Value → Option (List (Key × Value) × List Value)
  | id::partition::payload::maxActiveMs::rest =>
    some ([entry "id" id, entry "payload" payload]++
      (partitionEntry mixed partition++optionalEntry "max_active_ms" maxActiveMs), rest)
  | _ => none

/-- `_parse_create_items_ext`. -/
def parseCreateItemsExt (rt : Runtime) (mixed : Bool) :
    ℕ → List Value → Except Err (List Value) :=
  countedChildren rt (lit "FLOW.CREATE_MANY ITEMS_EXT") 5 (createHead mixed)

/-- `_parse_create_items_ext_v2`. -/
def parseCreateItemsExtV2 (rt : Runtime) (mixed : Bool) :
    ℕ → List Value → Except Err (List Value) :=
  countedChildren rt (lit "FLOW.CREATE_MANY ITEMS_EXT_V2") 6 (createHeadV2 mixed)

/-- The items after a marker at index `itemToken`. -/
def createItems (rt : Runtime) (args : List Value) (itemToken : ℕ) (mixed : Bool) :
    Except Err (List Value) :=
  let marker := rt.commandToken (args.getD itemToken .none)
  if marker = lit "ITEMS_EXT" ∨ marker = lit "ITEMS_EXT_V2" then do
    let label := if marker = lit "ITEMS_EXT" then "FLOW.CREATE_MANY ITEMS_EXT"
      else "FLOW.CREATE_MANY ITEMS_EXT_V2"
    let countArg ← requireArg args (itemToken+1) label
    let count ← requireNonnegativeCount (lit label) countArg
    if marker = lit "ITEMS_EXT_V2" then
      parseCreateItemsExtV2 rt mixed count (args.drop (itemToken+2))
    else parseCreateItemsExt rt mixed count (args.drop (itemToken+2))
  else parseCreateItems (args.drop (itemToken+1)) mixed

/-- `_flow_create_many_payload`. -/
def flowCreateManyPayload (rt : Runtime) (args : List Value) : Except Err Payload := do
  let (selector, options, itemToken) ← manyOptions rt "FLOW.CREATE_MANY" args
  let payload := if selector ∈ ["AUTO", "MIXED", "NONE"].map lit then options
    else Dict.set options "partition_key" (args.headD .none)
  let items ← createItems rt args itemToken (selector = lit "MIXED")
  .ok (Dict.set payload "items" (.list items))

/-- The fields of a batch whose items are of one partition, or each of its own. -/
def batchFields (mixed : Bool) (args : List Value) (options : Payload) : Payload :=
  if mixed then options else Dict.set options "partition_key" (args.headD .none)

/-- `_flow_claimed_many_payload`. -/
def flowClaimedManyPayload (rt : Runtime) (name : String) (args : List Value) :
    Except Err Payload := do
  let (selector, options, itemToken) ← manyOptions rt name args
  let mixed := selector = lit "MIXED"
  let items ← parseClaimedItems (args.drop (itemToken+1)) mixed
  .ok (Dict.set (batchFields mixed args options) "items" (.list items))

/-- `_flow_fenced_many_payload`. -/
def flowFencedManyPayload (rt : Runtime) (name : String) (args : List Value)
    (includeLease : Bool) : Except Err Payload := do
  let (selector, options, itemToken) ← manyOptions rt name args
  let mixed := selector = lit "MIXED"
  let items ← parseFencedItems (args.drop (itemToken+1)) mixed includeLease
  .ok (Dict.set (batchFields mixed args options) "items" (.list items))

end FerricStore.FlowManyPayloads
