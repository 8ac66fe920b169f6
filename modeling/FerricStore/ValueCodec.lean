import FerricStore.Cursor
import FerricStore.Value

/-!
# The native value codec

`writeValue` appends the tagged encoding of one value to a sink with an optional
byte bound; what was written before an error stays written. `decodeValueFrom`
reads one value at an offset and charges the elements of every collection to one
optional budget. The argument `levels` is the number of nesting levels that may
still be opened, so the depth guard of the source is its zero case.
-/

set_option autoImplicit false

namespace FerricStore.ValueCodec
open Text Cursor

def maxValueNesting : ℕ := 128
def u32Max : ℕ := 2^32-1
def i64Min : ℤ := -2^63
def i64Max : ℤ := 2^63-1
def u64Max : ℤ := 2^64-1

structure ValueWriter where
  maxBytes : Option ℕ
  sink : Bytes

abbrev Writing := EStateM Err ValueWriter Unit

def ValueWriter.ensureCapacity (size : ℕ) : Writing := fun w =>
  match w.maxBytes with
  | none => .ok () w
  | some limit =>
    if (size : ℤ) > limit-w.sink.length then .error .encodedValueLimit w else .ok () w

def ValueWriter.write (value : Bytes) : Writing := do
  ensureCapacity value.length
  modify fun w => { w with sink := w.sink++value }

def ValueWriter.remainingCapacity (w : ValueWriter) : Option ℤ :=
  w.maxBytes.map fun limit => limit-w.sink.length

open ValueWriter

/-- The running size of `_require_utf8_within` stops at the first excess. -/
def utf8SizeExceeds (limit : ℤ) : ℤ → Str → Bool
  | _, [] => false
  | size, c::s =>
    let size := size+utf8Size c
    if size > limit then true else utf8SizeExceeds limit size s

def requireUtf8Within (value : Str) (limit : ℤ) : Writing :=
  if (value.length : ℤ) > limit then throw .encodedValueLimit
  else if isAscii value then pure ()
  else if utf8SizeExceeds limit 0 value then throw .encodedValueLimit
  else pure ()

def writeCollectionHeader (tag : UInt8) (count : ℕ) : Writing :=
  if count > u32Max then
    throw (.ferricStore "protocol collection must fit in an unsigned 32-bit count")
  else do
    write [tag]
    write (BigEndian.encode 4 count)

def writeBinaryLength (size : ℕ) : Writing :=
  if size > u32Max then
    throw (.ferricStore "protocol binary must fit in an unsigned 32-bit length")
  else write (BigEndian.encode 4 size)

def writeBinary (value : Bytes) : Writing := do
  write [4]
  writeBinaryLength value.length
  write value

def keyBytes : Key → Except Err Bytes
  | .bytes b => .ok b
  | .str s => (encode s).elim
      (.error (.ferricStore "protocol map keys must contain valid UTF-8")) .ok
  | .other _ => .error (.ferricStore "protocol map keys must be str or bytes")

def writeInt (n : ℤ) : Writing :=
  if i64Min ≤ n ∧ n ≤ i64Max then do
    write [3]
    write (BigEndian.encodeSigned 8 n)
  else if i64Max < n ∧ n ≤ u64Max then do
    write [8]
    write (BigEndian.encode 8 n.toNat)
  else throw (.ferricStore
    "protocol integer must fit in a signed or unsigned 64-bit value")

def requireStrCapacity (s : Str) : Writing := do
  match (← get).remainingCapacity with
  | none => pure ()
  | some remaining => do
    ensureCapacity 5
    requireUtf8Within s (remaining-5)

def writeStr (s : Str) : Writing := do
  requireStrCapacity s
  match encode s with
  | none => throw (.ferricStore "protocol strings must contain valid UTF-8")
  | some encoded => writeBinary encoded

mutual
def writeValue : Value → ℕ → Writing
  | _, 0 => throw (.ferricStore "protocol value nesting exceeds maximum depth")
  | .none, _+1 => write [0]
  | .bool true, _+1 => write [1]
  | .bool false, _+1 => write [2]
  | .int n, _+1 => writeInt n
  | .float bits, _+1 => do
    write [7]
    write (BigEndian.encode 8 bits.toNat)
  | .str s, _+1 => writeStr s
  | .bytes b, _+1 => writeBinary b
  | .bytearray b, _+1 => writeBinary b
  | .list xs, levels+1 => do
    writeCollectionHeader 5 xs.length
    writeItems xs levels
  | .tuple xs, levels+1 => do
    writeCollectionHeader 5 xs.length
    writeItems xs levels
  | .dict es, levels+1 => do
    writeCollectionHeader 6 es.length
    writeEntries es [] levels
  | .object typeName _, _+1 =>
    throw (.ferricStore ("unsupported protocol value type: " ++ typeName))
def writeItems : List Value → ℕ → Writing
  | [], _ => pure ()
  | x::xs, levels => do
    writeValue x levels
    writeItems xs levels
def writeEntries : List (Key × Value) → List Bytes → ℕ → Writing
  | [], _, _ => pure ()
  | (key, item)::es, encodedKeys, levels =>
    match keyBytes key with
    | .error e => throw e
    | .ok encodedKey =>
      if encodedKey ∈ encodedKeys then
        throw (.duplicateMapKey "duplicate protocol map key after wire encoding")
      else do
        writeBinaryLength encodedKey.length
        write encodedKey
        writeValue item levels
        writeEntries es (encodedKeys++[encodedKey]) levels
end

def encodeValue (v : Value) (maxBytes : Option ℕ) : Except Err Bytes :=
  match writeValue v (maxValueNesting+1) ⟨maxBytes, []⟩ with
  | .ok _ w => .ok w.sink
  | .error e _ => .error e

abbrev Decoding := EStateM Err (Option ℕ)

def consume (count : ℕ) : Decoding Unit := fun remaining =>
  match remaining with
  | none => .ok () none
  | some r => if count > r then .error .decodedCollectionLimit (some r)
      else .ok () (some (r-count))

def requireAvailable (data : Bytes) (offset size : ℕ) : Decoding Unit :=
  if offset+size > data.length then throw (.ferricStore "protocol value is truncated")
  else pure ()

def readField (data : Bytes) (offset size : ℕ) : Decoding Bytes := do
  requireAvailable data offset size
  pure (slice data offset size)

def readU32 (data : Bytes) (offset : ℕ) : Decoding ℕ := do
  pure (BigEndian.decode (← readField data offset 4))

def readBinary (data : Bytes) (offset : ℕ) : Decoding (Bytes × ℕ) := do
  let size ← readU32 data offset
  let b ← readField data (offset+4) size
  pure (b, offset+4+size)

def decodeItems (decode : ℕ → Decoding (Value × ℕ)) : ℕ → ℕ → Decoding (List Value × ℕ)
  | 0, offset => pure ([], offset)
  | count+1, offset => do
    let (value, offset) ← decode offset
    let (values, offset) ← decodeItems decode count offset
    pure (value::values, offset)

def decodeEntries (data : Bytes) (decode : ℕ → Decoding (Value × ℕ)) :
    ℕ → List (Key × Value) → ℕ → Decoding (List (Key × Value) × ℕ)
  | 0, mapValues, offset => pure (mapValues, offset)
  | count+1, mapValues, offset => do
    let (key, offset) ← readBinary data offset
    if mapValues.any fun e => e.1 = .bytes key then
      throw (.duplicateMapKey "duplicate protocol map key while decoding")
    else do
      let (value, offset) ← decode offset
      decodeEntries data decode count (mapValues++[(Key.bytes key, value)]) offset

def decodeList (decode : ℕ → Decoding (Value × ℕ)) (count offset : ℕ) :
    Decoding (Value × ℕ) :=
  if count = 3 then do
    let (first, offset) ← decode offset
    let (second, offset) ← decode offset
    let (third, offset) ← decode offset
    pure (.list [first, second, third], offset)
  else do
    let (values, offset) ← decodeItems decode count offset
    pure (.list values, offset)

/-- The branches of `_decode_value_at` on the tag before `offset`; `decode` is
the decoder one level down. -/
def decodeTagged (data : Bytes) (decode : ℕ → Decoding (Value × ℕ)) (tag offset : ℕ) :
    Decoding (Value × ℕ) :=
  match tag with
  | 0 => pure (.none, offset)
  | 1 => pure (.bool true, offset)
  | 2 => pure (.bool false, offset)
  | 3 => do
    let b ← readField data offset 8
    pure (.int (BigEndian.decodeSigned b), offset+8)
  | 4 => do
    let (b, offset) ← readBinary data offset
    pure (.bytes b, offset)
  | 5 => do
    let count ← readU32 data offset
    consume count
    decodeList decode count (offset+4)
  | 6 => do
    let count ← readU32 data offset
    consume count
    let (entries, offset) ← decodeEntries data decode count [] (offset+4)
    pure (.dict entries, offset)
  | 7 => do
    let b ← readField data offset 8
    pure (.float (BitVec.ofNat 64 (BigEndian.decode b)), offset+8)
  | 8 => do
    let b ← readField data offset 8
    pure (.int (BigEndian.decode b), offset+8)
  | _ => throw (.ferricStore "protocol value has unknown tag")

def decodeValueFrom (data : Bytes) : ℕ → ℕ → Decoding (Value × ℕ)
  | 0, _ => throw (.ferricStore "protocol value nesting exceeds maximum depth")
  | levels+1, offset => do
    let tag ← readField data offset 1
    decodeTagged data (decodeValueFrom data levels) (BigEndian.decode tag) (offset+1)

def decodeValueAt (data : Bytes) (offset : ℕ) : Decoding (Value × ℕ) :=
  decodeValueFrom data (maxValueNesting+1) offset

def decodeValue (data : Bytes) (maxCollectionItems : Option ℕ) :
    Except Err (Value × Bytes) :=
  if data = [] then .error (.ferricStore "protocol value is empty")
  else match decodeValueAt data 0 maxCollectionItems with
    | .ok (value, offset) _ => .ok (value, data.drop offset)
    | .error e _ => .error e

end FerricStore.ValueCodec
