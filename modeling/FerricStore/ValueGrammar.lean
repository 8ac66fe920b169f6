import FerricStore.Grammars
import FerricStore.ValueCodecRoundTrip

/-!
# The grammar of tagged values

A tagged value is a byte and what it announces. The decoder of the value codec, written with
offsets, is the parser of this grammar: it accepts exactly the tagged values that stay within
its levels and whose collections fit the budget.
-/

set_option autoImplicit false

namespace FerricStore.ValueGrammar
open Cursor Stateful Budgets ValueCodec Grammars

def binaryField : Grammar Bytes := fun b w c =>
  b.length < 256^4 ∧ w = BigEndian.encode 4 b.length++b ∧ c = 0

/-- A map with binary keys. -/
def binaryMap (entries : List (Bytes × Value)) : Value :=
  .dict (entries.map fun e => (.bytes e.1, e.2))

/-- A tagged value over a grammar of its items. -/
inductive TaggedBy (G : Grammar Value) : Value → Bytes → ℕ → Prop where
  | none : TaggedBy G .none [0] 0
  | true : TaggedBy G (.bool true) [1] 0
  | false : TaggedBy G (.bool false) [2] 0
  | signed (n : ℤ) : -(256^8 : ℤ) ≤ 2*n → 2*n < 256^8 →
    TaggedBy G (.int n) (3::BigEndian.encodeSigned 8 n) 0
  | binary {b w : Bytes} {c : ℕ} : binaryField b w c → TaggedBy G (.bytes b) (4::w) c
  | list {xs : List Value} {w : Bytes} {c : ℕ} : counted G xs w c → TaggedBy G (.list xs) (5::w) c
  | dict {es : List (Bytes × Value)} {w : Bytes} {c : ℕ} :
    countedMap (pair binaryField G) es w c → TaggedBy G (binaryMap es) (6::w) c
  | float (bits : BitVec 64) : TaggedBy G (.float bits) (7::BigEndian.encode 8 bits.toNat) 0
  | unsigned (n : ℕ) : n < 256^8 → TaggedBy G (.int n) (8::BigEndian.encode 8 n) 0

/-- Tagged values of so many levels. -/
def tagged : ℕ → Grammar Value
  | 0 => fun _ _ _ => False
  | n+1 => TaggedBy (tagged n)

/-! ## The decoder as a parser -/

def truncated : Err := .ferricStore "protocol value is truncated"

def binaryParser : Parser Err Bytes := do
  let size ← natural truncated 4
  field truncated size

def collectionLimit : Err := .decodedCollectionLimit

def duplicateKey : Err := .duplicateMapKey "duplicate protocol map key while decoding"

def taggedParser (p : Parser Err Value) : ℕ → Parser Err Value
  | 0 => pure .none
  | 1 => pure (.bool true)
  | 2 => pure (.bool false)
  | 3 => do
    let n ← integer truncated 8
    pure (.int n)
  | 4 => do
    let b ← binaryParser
    pure (.bytes b)
  | 5 => do
    let xs ← listOf truncated collectionLimit p
    pure (.list xs)
  | 6 => do
    let es ← mapOf truncated collectionLimit duplicateKey binaryParser p
    pure (binaryMap es)
  | 7 => do
    let b ← field truncated 8
    pure (.float (BitVec.ofNat 64 (BigEndian.decode b)))
  | 8 => do
    let n ← natural truncated 8
    pure (.int n)
  | _ => fail (.ferricStore "protocol value has unknown tag")

def valueParser (n : ℕ) : Parser Err Value := fun data offset => decodeValueFrom data n offset

section Decoder

variable (data : Bytes) (offset : ℕ)

theorem field_eq (size : ℕ) : field truncated size data offset = (do
    let b ← readField data offset size
    pure (b, offset+size)) := by
  unfold field readField requireAvailable
  split_ifs <;> rfl

theorem natural_eq : natural truncated 4 data offset = (do
    let n ← readU32 data offset
    pure (n, offset+4)) := by
  simp [natural, field_eq, readU32]

theorem binaryParser_eq : binaryParser data offset = readBinary data offset := by
  simp [binaryParser, natural_eq, field_eq, readBinary]

theorem times_eq (p : Parser Err Value) (count : ℕ) :
    times p count data offset = decodeItems (p data) count offset := by
  induction count generalizing offset with
  | zero => rfl
  | succ count ih =>
    simp only [times, decodeItems, bind_apply, ih]
    rfl

theorem charge_eq (count : ℕ) : charge collectionLimit count data offset = (do
    consume count
    pure ((), offset)) := by
  funext b
  cases b with
  | none => rfl
  | some r =>
    simp only [charge, consume, bind, EStateM.bind]
    split_ifs <;> rfl

theorem distinct_eq (p : Parser Err Value) (count : ℕ) (seen : List (Bytes × Value)) :
    (do
      let es ← distinct duplicateKey binaryParser p count seen
      pure (es.map fun e => (Key.bytes e.1, e.2)) : Parser Err _) data offset =
    decodeEntries data (p data) count (seen.map fun e => (.bytes e.1, e.2)) offset := by
  induction count generalizing offset seen with
  | zero => rfl
  | succ count ih =>
    have hany : ∀ k : Bytes, ((seen.map fun e => (Key.bytes e.1, e.2)).any
        fun e => decide (e.1 = .bytes k)) = decide (k ∈ seen.map Prod.fst) := by
      intro k
      rw [Bool.eq_iff_iff, List.any_map, List.any_eq_true, decide_eq_true_eq, List.mem_map]
      simp only [Function.comp, Key.bytes.injEq, decide_eq_true_eq]
    simp only [distinct, decodeEntries, bind_apply, binaryParser_eq, hany, bind_assoc,
      decide_eq_true_eq]
    congr 1
    funext r
    obtain ⟨k, o⟩ := r
    dsimp only
    split_ifs with hk
    · rfl
    · simp only [bind_apply, bind_assoc]
      congr 1
      funext r
      have := ih r.2 (seen++[(k, r.1)])
      simpa using this

/-- The branches on the tag. -/
theorem taggedParser_eq (p : Parser Err Value) : ∀ tag,
    taggedParser p tag data offset = decodeTagged data (p data) tag offset
  | 0 => rfl
  | 1 => rfl
  | 2 => rfl
  | 3 => by simp [taggedParser, decodeTagged, integer, field_eq]
  | 4 => by simp [taggedParser, decodeTagged, binaryParser_eq]
  | 5 => by
    simp [taggedParser, decodeTagged, listOf, natural_eq, charge_eq, times_eq, decodeList_eq]
  | 6 => by
    have hentries := fun offset count => distinct_eq data offset p count []
    simp only [bind_apply, Grammars.pure_apply, List.map_nil] at hentries
    simp [taggedParser, decodeTagged, mapOf, natural_eq, charge_eq, binaryMap, ← hentries]
  | 7 => by simp [taggedParser, decodeTagged, field_eq]
  | 8 => by simp [taggedParser, decodeTagged, natural, field_eq]
  | _+9 => rfl

/-- A level of the decoder: a byte, and what it announces. -/
theorem valueParser_eq (n : ℕ) : valueParser (n+1) data offset = (do
    let tag ← byte truncated
    taggedParser (valueParser n) tag.toNat : Parser Err Value) data offset := by
  funext b
  rw [bind_apply, valueParser]
  cases ht : data[offset]? with
  | none =>
    have hend : data.length ≤ offset := List.getElem?_eq_none_iff.mp ht
    have hfield : readField data offset 1 b = .error truncated b := by
      unfold readField requireAvailable
      rw [if_pos (by omega)]
      rfl
    have hbyte : byte truncated data offset b = .error truncated b := by
      rw [byte, ht]
      rfl
    rw [decodeValueFrom, bind_of_error hfield, bind_of_error hbyte]
  | some t =>
    have hs : Suffix data offset (t::data.drop (offset+1)) := by
      obtain ⟨hlt, rfl⟩ := List.getElem?_eq_some_iff.mp ht
      exact ⟨hlt.le, List.drop_eq_getElem_cons hlt⟩
    have hbyte : byte truncated data offset b = .ok (t, offset+1) b := by
      rw [byte, ht]
      rfl
    rw [decode_tag hs b, bind_of_ok hbyte]
    exact (congrFun (taggedParser_eq data (offset+1) (valueParser n) t.toNat) b).symm

end Decoder

/-- What each tag announces. -/
def announced (G : Grammar Value) : ℕ → Grammar Value
  | 0 => fun v w c => v = .none ∧ w = [] ∧ c = 0
  | 1 => fun v w c => v = .bool true ∧ w = [] ∧ c = 0
  | 2 => fun v w c => v = .bool false ∧ w = [] ∧ c = 0
  | 3 => fun v w c => ∃ n, (-(256^8 : ℤ) ≤ 2*n ∧ 2*n < 256^8 ∧ w = BigEndian.encodeSigned 8 n ∧ c = 0) ∧
    v = .int n
  | 4 => fun v w c => ∃ b, binaryField b w c ∧ v = .bytes b
  | 5 => fun v w c => ∃ xs, counted G xs w c ∧ v = .list xs
  | 6 => fun v w c => ∃ es, countedMap (pair binaryField G) es w c ∧ v = binaryMap es
  | 7 => fun v w c => ∃ b : Bytes, (b.length = 8 ∧ w = b ∧ c = 0) ∧
    v = .float (BitVec.ofNat 64 (BigEndian.decode b))
  | 8 => fun v w c => ∃ n, (n < 256^8 ∧ w = BigEndian.encode 8 n ∧ c = 0) ∧ v = .int n
  | _ => fun _ _ _ => False

theorem binaryParser_reads : Reads binaryParser binaryField := by
  refine ((Reads.natural truncated 4).bind fun n => Reads.field truncated n).congr fun b w c => ?_
  constructor
  · rintro ⟨n, _, _, _, _, ⟨hn, rfl, rfl⟩, ⟨rfl, rfl, rfl⟩, rfl, rfl⟩
    exact ⟨hn, rfl, rfl⟩
  · rintro ⟨hn, rfl, rfl⟩
    exact ⟨b.length, _, 0, b, 0, ⟨hn, rfl, rfl⟩, ⟨rfl, rfl, rfl⟩, rfl, rfl⟩

theorem taggedParser_reads {p : Parser Err Value} {G : Grammar Value} (hp : Reads p G) :
    ∀ tag, Reads (taggedParser p tag) (announced G tag)
  | 0 => Reads.pure _
  | 1 => Reads.pure _
  | 2 => Reads.pure _
  | 3 => (Reads.integer truncated 8).map
  | 4 => binaryParser_reads.map
  | 5 => hp.listOf.map
  | 6 => (binaryParser_reads.mapOf hp).map
  | 7 => (Reads.field truncated 8).map
  | 8 => (Reads.natural truncated 8).map
  | _+9 => Reads.fail _

theorem taggedBy_iff {G : Grammar Value} {v : Value} {w : Bytes} {c : ℕ} :
    TaggedBy G v w c ↔ ∃ (tag : UInt8) (rest : Bytes), w = tag::rest ∧
      announced G tag.toNat v rest c := by
  constructor
  · intro h
    cases h with
    | none => exact ⟨0, [], rfl, rfl, rfl, rfl⟩
    | true => exact ⟨1, [], rfl, rfl, rfl, rfl⟩
    | false => exact ⟨2, [], rfl, rfl, rfl, rfl⟩
    | signed n hlow hhigh => exact ⟨3, _, rfl, n, ⟨hlow, hhigh, rfl, rfl⟩, rfl⟩
    | binary h => exact ⟨4, _, rfl, _, h, rfl⟩
    | list h => exact ⟨5, _, rfl, _, h, rfl⟩
    | dict h => exact ⟨6, _, rfl, _, h, rfl⟩
    | float bits =>
      refine ⟨7, _, rfl, _, ⟨BigEndian.encode_length 8 _, rfl, rfl⟩, ?_⟩
      rw [BigEndian.decode_encode 8 _ (by have := bits.isLt; omega), BitVec.ofNat_toNat]
      simp
    | unsigned n hn => exact ⟨8, _, rfl, n, ⟨hn, rfl, rfl⟩, rfl⟩
  · rintro ⟨tag, rest, rfl, h⟩
    have htag : tag = UInt8.ofNat tag.toNat := by simp
    generalize tag.toNat = t at h htag
    subst htag
    match t with
    | 0 =>
      obtain ⟨rfl, rfl, rfl⟩ := h
      exact .none
    | 1 =>
      obtain ⟨rfl, rfl, rfl⟩ := h
      exact .true
    | 2 =>
      obtain ⟨rfl, rfl, rfl⟩ := h
      exact .false
    | 3 =>
      obtain ⟨n, ⟨hlow, hhigh, rfl, rfl⟩, rfl⟩ := h
      exact .signed n hlow hhigh
    | 4 =>
      obtain ⟨b, hb, rfl⟩ := h
      exact .binary hb
    | 5 =>
      obtain ⟨xs, hxs, rfl⟩ := h
      exact .list hxs
    | 6 =>
      obtain ⟨es, hes, rfl⟩ := h
      exact .dict hes
    | 7 =>
      obtain ⟨b, ⟨hlength, rfl, rfl⟩, rfl⟩ := h
      have hlt := BigEndian.decode_lt rest
      rw [hlength] at hlt
      have hbits : BigEndian.encode 8 (BitVec.ofNat 64 (BigEndian.decode rest)).toNat = rest := by
        rw [BitVec.toNat_ofNat, Nat.mod_eq_of_lt (by omega), ← hlength, BigEndian.encode_decode]
      have hfloat := TaggedBy.float (G := G) (BitVec.ofNat 64 (BigEndian.decode rest))
      rwa [hbits] at hfloat
    | 8 =>
      obtain ⟨n, ⟨hn, rfl, rfl⟩, rfl⟩ := h
      exact .unsigned n hn
    | _+9 => exact h.elim

/-- The decoder of so many levels accepts exactly the tagged values of so many levels. -/
theorem valueParser_reads (n : ℕ) : Reads (valueParser n) (tagged n) := by
  induction n with
  | zero => exact Reads.fail _
  | succ n ih =>
    have hparser : valueParser (n+1) = (do
        let tag ← byte truncated
        taggedParser (valueParser n) tag.toNat : Parser Err Value) := by
      funext data offset
      exact valueParser_eq data offset n
    rw [hparser]
    refine ((Reads.byte truncated).bind fun tag => taggedParser_reads ih tag.toNat).congr
      fun v w c => ?_
    rw [tagged, taggedBy_iff]
    constructor
    · rintro ⟨tag, _, _, rest, _, ⟨rfl, rfl⟩, h, rfl, rfl⟩
      exact ⟨tag, rest, rfl, by rwa [Nat.zero_add]⟩
    · rintro ⟨tag, rest, rfl, h⟩
      exact ⟨tag, [tag], 0, rest, c, ⟨rfl, rfl⟩, h, rfl, (Nat.zero_add c).symm⟩

end FerricStore.ValueGrammar
