import FerricStore.Base64
import FerricStore.ValueCodecRoundTrip

/-!
# Values over HTTP

JSON has neither bytes nor maps with bytes as keys, so `_json_value` sends both as an object
with one tag and every map as the list of its entries. MessagePack carries both, and
`_compact_value` only replaces what it cannot carry. The answer is untagged by
`_decode_binary_value`, and `_native_value` turns text into bytes.
-/

set_option autoImplicit false

namespace FerricStore.HttpValues

open Text Base64

def bytesTag : Key := .str (lit "$ferricstore_bytes")
def mapTag : Key := .str (lit "$ferricstore_map")

/-- A key that is neither text nor bytes: what the two encoders make of it, and the key that
a decoded scalar is. -/
structure OtherKeys where
  json : ℕ → Except Err Value
  compact : ℕ → Except Err Key
  scalar : Value → Key

/-- Every other key is rejected. -/
def OtherKeys.rejected : OtherKeys :=
  ⟨fun _ => .error .typeError, fun _ => .error .typeError, fun _ => .other 0⟩

def bytesMarker (b : Bytes) : Value := .dict [(bytesTag, .str (b64encode b))]

def jsonKey (keys : OtherKeys) : Key → Except Err Value
  | .str s => .ok (.str s)
  | .bytes b => .ok (bytesMarker b)
  | .other id => keys.json id

mutual
def jsonValue (keys : OtherKeys) : Value → Except Err Value
  | .none => .ok .none
  | .str s => .ok (.str s)
  | .bool b => .ok (.bool b)
  | .int n => .ok (.int n)
  | .float bits => if isFinite bits then .ok (.float bits) else .error .valueError
  | .bytes b => .ok (bytesMarker b)
  | .bytearray b => .ok (bytesMarker b)
  | .list xs => do
    let items ← jsonItems keys xs
    pure (.list items)
  | .tuple xs => do
    let items ← jsonItems keys xs
    pure (.list items)
  | .dict es => do
    let pairs ← jsonPairs keys es
    pure (.dict [(mapTag, .list pairs)])
  | .object _ _ => .error .typeError
def jsonItems (keys : OtherKeys) : List Value → Except Err (List Value)
  | [] => .ok []
  | x::xs => do
    let item ← jsonValue keys x
    let items ← jsonItems keys xs
    pure (item::items)
def jsonPairs (keys : OtherKeys) : List (Key × Value) → Except Err (List Value)
  | [] => .ok []
  | (k, v)::es => do
    let key ← jsonKey keys k
    let item ← jsonValue keys v
    let pairs ← jsonPairs keys es
    pure (.list [key, item]::pairs)
end

def compactKey (keys : OtherKeys) : Key → Except Err Key
  | .str s => .ok (.str s)
  | .bytes b => .ok (.bytes b)
  | .other id => keys.compact id

mutual
def compactValue (keys : OtherKeys) : Value → Except Err Value
  | .none => .ok .none
  | .str s => .ok (.str s)
  | .bytes b => .ok (.bytes b)
  | .bool b => .ok (.bool b)
  | .int n => .ok (.int n)
  | .bytearray b => .ok (.bytes b)
  | .float bits => if isFinite bits then .ok (.float bits) else .error .valueError
  | .list xs => do
    let items ← compactItems keys xs
    pure (.list items)
  | .tuple xs => do
    let items ← compactItems keys xs
    pure (.list items)
  | .dict es => do
    let entries ← compactEntries keys es []
    pure (.dict entries)
  | .object _ _ => .error .typeError
def compactItems (keys : OtherKeys) : List Value → Except Err (List Value)
  | [] => .ok []
  | x::xs => do
    let item ← compactValue keys x
    let items ← compactItems keys xs
    pure (item::items)
def compactEntries (keys : OtherKeys) :
    List (Key × Value) → Dict Key Value → Except Err (Dict Key Value)
  | [], decoded => .ok decoded
  | (k, v)::es, decoded => do
    let key ← compactKey keys k
    let item ← compactValue keys v
    compactEntries keys es (Dict.set decoded key item)
end

def encodeText (s : Str) : Except Err Bytes := (encode s).elim (.error .unicodeEncode) .ok

def nativeKey : Key → Except Err Key
  | .str s => do
    let key ← encodeText s
    pure (.bytes key)
  | k => .ok k

mutual
def nativeValue : Value → Except Err Value
  | .str s => do
    let b ← encodeText s
    pure (.bytes b)
  | .list xs => do
    let items ← nativeItems xs
    pure (.list items)
  | .dict es => do
    let entries ← nativeEntries es []
    pure (.dict entries)
  | v => .ok v
def nativeItems : List Value → Except Err (List Value)
  | [] => .ok []
  | x::xs => do
    let item ← nativeValue x
    let items ← nativeItems xs
    pure (item::items)
def nativeEntries : List (Key × Value) → Dict Key Value → Except Err (Dict Key Value)
  | [], acc => .ok acc
  | (k, v)::es, acc => do
    let key ← nativeKey k
    let item ← nativeValue v
    nativeEntries es (Dict.set acc key item)
end

/-- A decoded value as a key; lists and maps cannot be hashed. -/
def hashable (keys : OtherKeys) : Value → Except Err Key
  | .str s => .ok (.str s)
  | .bytes b => .ok (.bytes b)
  | .bytearray _ | .list _ | .dict _ => .error .typeError
  | v => .ok (keys.scalar v)

def decodeBytes : Value → Except Err Value
  | .str s => (b64decode s).elim (.error .valueError) fun b => .ok (.bytes b)
  | _ => .error .typeError

mutual
def decodeBinaryValue (keys : OtherKeys) : Value → Except Err Value
  | .list xs => do
    let items ← decodeBinaryItems keys xs
    pure (.list items)
  | .dict [(k, item)] =>
    if k = bytesTag then decodeBytes item
    else if k = mapTag then
      match item with
      | .list pairs => do
        let decoded ← decodeBinaryPairs keys pairs []
        pure (.dict decoded)
      | _ => .error .typeError
    else do
      let value ← decodeBinaryValue keys item
      pure (.dict [(k, value)])
  | .dict es => do
    let entries ← decodeBinaryEntries keys es
    pure (.dict entries)
  | v => .ok v
def decodeBinaryItems (keys : OtherKeys) : List Value → Except Err (List Value)
  | [] => .ok []
  | x::xs => do
    let item ← decodeBinaryValue keys x
    let items ← decodeBinaryItems keys xs
    pure (item::items)
def decodeBinaryPairs (keys : OtherKeys) :
    List Value → Dict Key Value → Except Err (Dict Key Value)
  | [], decoded => .ok decoded
  | .list [first, second]::pairs, decoded => do
    let key ← decodeBinaryValue keys first
    let value ← decodeBinaryValue keys second
    let key ← hashable keys key
    decodeBinaryPairs keys pairs (Dict.set decoded key value)
  | _::_, _ => .error .typeError
def decodeBinaryEntries (keys : OtherKeys) :
    List (Key × Value) → Except Err (List (Key × Value))
  | [] => .ok []
  | (k, v)::es => do
    let value ← decodeBinaryValue keys v
    let entries ← decodeBinaryEntries keys es
    pure ((k, value)::entries)
end

mutual
/-- Every float of the value is finite. -/
def finite : Value → Bool
  | .float bits => isFinite bits
  | .list xs => finiteItems xs
  | .tuple xs => finiteItems xs
  | .dict es => finiteEntries es
  | _ => true
def finiteItems : List Value → Bool
  | [] => true
  | x::xs => finite x && finiteItems xs
def finiteEntries : List (Key × Value) → Bool
  | [] => true
  | (_, v)::es => finite v && finiteEntries es
end

mutual
/-- Tuples as lists and bytearrays as bytes. -/
def plain : Value → Value
  | .bytearray b => .bytes b
  | .list xs => .list (plainItems xs)
  | .tuple xs => .list (plainItems xs)
  | .dict es => .dict (plainEntries es)
  | v => v
def plainItems : List Value → List Value
  | [] => []
  | x::xs => plain x::plainItems xs
def plainEntries : List (Key × Value) → List (Key × Value)
  | [] => []
  | (k, v)::es => (k, plain v)::plainEntries es
end

end FerricStore.HttpValues
