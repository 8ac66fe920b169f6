import FerricStore.Crc32
import FerricStore.FlowRouting
import FerricStore.MemoCaches

/-!
# Slots and routing keys of keys

A key is text or bytes. Its slot is the checksum of its hash tag, and the routing
key of a logical partition comes from the cache, from one hash or from a hash over
chunks, by the length of the key. Both spellings are scanned by the same code, once
over code points and once over bytes.
-/

set_option autoImplicit false

namespace FerricStore.KeyRouting
open Text FlowRouting Crc32 MemoCaches

section Scan

variable {α : Type} [DecidableEq α]

/-- `find` of one symbol, `none` for `-1`. -/
def find (c : α) : List α → Option ℕ
  | [] => none
  | x::xs => if x = c then some 0 else (find c xs).map (·+1)

/-- `_hash_tag_or_key`. -/
def hashTagOrKey (opening closing : α) (key : List α) : List α :=
  match find opening key with
  | none => key
  | some start =>
    match find closing (key.drop (start+1)) with
    | some n => if 0 < n then (key.drop (start+1)).take n else key
    | none => key

/-- `_flow_hash_tag`. -/
def flowHashTag (opening closing : α) (rest fallbackKey : List α) : List α :=
  match find closing rest with
  | some n => if 0 < n then rest.take n else hashTagOrKey opening closing fallbackKey
  | none => hashTagOrKey opening closing fallbackKey

/-- What `slot_for_key` hashes of a key; `flow` and `shared` are the two prefixes. -/
def hashInput (opening closing : α) (flow shared key : List α) : List α :=
  if flow.isPrefixOf key then flowHashTag opening closing (key.drop flow.length) key
  else if shared.isPrefixOf key then flowHashTag opening closing (key.drop shared.length) key
  else hashTagOrKey opening closing key

end Scan

def brace : CodePoint := 0x7B

def unbrace : CodePoint := 0x7D

def flowPrefix : Str := lit "f:\x7b"

def sharedPrefix : Str := lit "X:f:\x7b"

def textHashInput (s : Str) : Str := hashInput brace unbrace flowPrefix sharedPrefix s

def bytesHashInput (b : Bytes) : Bytes :=
  hashInput 0x7B 0x7D (utf8 flowPrefix) (utf8 sharedPrefix) b

def routeSlotMask : BitVec 32 := 1023#32

def slotOf (hashed : Bytes) : ℕ := (crc32 0 hashed &&& routeSlotMask).toNat

/-- `slot_for_key`. -/
def slotForKey (rt : Runtime) : Value → Except Err ℕ
  | .bytes b => .ok (slotOf (bytesHashInput b))
  | v => (encodeText (textHashInput (rt.str v))).map slotOf

/-- `_routing_crc32`. -/
def routingCrc32 : Value → Except Err (Option (BitVec 32))
  | .bytes b => .ok (some (crc32 0 b))
  | .str s => do
    let chunks ← (s.toChunks flowRoutingTextChunkChars).mapM encodeText
    .ok (some (chunks.foldl crc32 0))
  | _ => .ok none

/-- `flow_auto_id_routing_key`. -/
def flowAutoIdRoutingKey (v : Value) : Except Err (Option Str) := do
  let checksum ← routingCrc32 v
  .ok (checksum.map fun c => autoRouteKey (c &&& 0xFF#32).toNat)

def flowPartitionRouteCacheSize : ℕ := 2048

/-- The routing key of an encoded key, and the cache after the call. -/
def encodedRoutingKey (digest : Bytes → Str) (cache : Dict Bytes Str) (encoded : Bytes) :
    Except Err (Option Str) × Dict Bytes Str :=
  if encoded.length > flowPartitionRouteCacheMaxKeyBytes then
    (.ok (some (logicalPartitionKey digest encoded)), cache)
  else
    let answer := callThrough (logicalPartitionKey digest) flowPartitionRouteCacheSize cache encoded
    (.ok (some answer.1), answer.2)

/-- `flow_logical_partition_routing_key` with its cache. -/
def cachedRoutingKey (digest : Bytes → Str) (cache : Dict Bytes Str) :
    Value → Except Err (Option Str) × Dict Bytes Str
  | .str s =>
    if s.length > flowPartitionRouteCacheMaxKeyBytes then
      ((logicalPartitionTextRoutingKey digest s).map some, cache)
    else match encodeText s with
      | .error e => (.error e, cache)
      | .ok encoded => encodedRoutingKey digest cache encoded
  | .bytes b => encodedRoutingKey digest cache b
  | _ => (.ok none, cache)

/-- The cache after a run of calls. -/
def cacheAfter (digest : Bytes → Str) (calls : List Value) : Dict Bytes Str :=
  calls.foldl (fun cache v => (cachedRoutingKey digest cache v).2) []

end FerricStore.KeyRouting
