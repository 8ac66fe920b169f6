import FerricStore.BigEndian

/-!
# CRC-32

The reflected CRC-32 of a byte string, from a checksum to start with. A checksum
of a first part is where the second part starts from.
-/

set_option autoImplicit false

namespace FerricStore.Crc32

def polynomial : BitVec 32 := 0xEDB88320#32

def bitStep (c : BitVec 32) : BitVec 32 :=
  if c.getLsbD 0 then (c >>> 1) ^^^ polynomial else c >>> 1

def byteStep (c : BitVec 32) (b : UInt8) : BitVec 32 :=
  Nat.iterate bitStep 8 (c ^^^ BitVec.ofNat 32 b.toNat)

/-- `zlib.crc32(data, start)`. -/
def crc32 (start : BitVec 32) (data : Bytes) : BitVec 32 :=
  data.foldl byteStep (start ^^^ 0xFFFFFFFF#32) ^^^ 0xFFFFFFFF#32

theorem xor_mask (c : BitVec 32) : c ^^^ 0xFFFFFFFF#32 ^^^ 0xFFFFFFFF#32 = c := by
  rw [BitVec.xor_assoc, BitVec.xor_self, BitVec.xor_zero]

theorem crc32_nil (start : BitVec 32) : crc32 start [] = start := xor_mask start

theorem crc32_append (start : BitVec 32) (a b : Bytes) :
    crc32 (crc32 start a) b = crc32 start (a++b) := by
  simp only [crc32, List.foldl_append, xor_mask]

/-- A text in parts has the checksum of the whole. -/
theorem foldl_crc32 (start : BitVec 32) (parts : List Bytes) :
    parts.foldl crc32 start = crc32 start parts.flatten := by
  induction parts generalizing start with
  | nil => exact (crc32_nil start).symm
  | cons p parts ih => rw [List.foldl_cons, ih, crc32_append, List.flatten_cons]

example : crc32 0 [0x31, 0x32, 0x33, 0x34, 0x35, 0x36, 0x37, 0x38, 0x39] = 0xCBF43926#32 := by
  decide +kernel

end FerricStore.Crc32
