import FerricStore.Stateful
import FerricStore.Cursor
import FerricStore.RawPipelineSizes

/-!
# The compact MSET payload

A caller may hand over an MSET payload that is already encoded. The parser walks it
with the counts and lengths it declares and returns its keys. It accepts exactly what
the encoder of key/value pairs emits. Its state is the list of ranges it has read, so
that an out-of-range read would be seen whatever the outcome.
-/

set_option autoImplicit false

namespace FerricStore.CompactMset
open Text Cursor Stateful FlowCodec RawPipelines ValueCodec

/-- `_compact_kv_set_pairs_payload`. -/
def compactKvSetPairsPayload (args : List Value) (mode : ℕ) : Metered Err Bytes :=
  if args.length = 0 ∨ args.length % 2 ≠ 0 then Metered.decline
  else compactBinarySequence args mode (args.length/2)

def invalidCompactMset : Err :=
  .invalidCommand (lit "MSET payload must be a valid compact key/value payload")

/-- The state is the ranges read so far, each an offset and a size. -/
abbrev Parsing := EStateM Err (List (ℕ × ℕ))

def read (payload : Bytes) (offset size : ℕ) : Parsing Bytes := do
  modify fun reads => reads++[(offset, size)]
  pure (slice payload offset size)

/-- The start and the end of the length-prefixed field at `offset`. -/
def fieldBounds (payload : Bytes) (offset : ℕ) : Parsing (ℕ × ℕ) :=
  if offset+4 > payload.length then throw invalidCompactMset
  else do
    let size ← read payload offset 4
    if offset+4+BigEndian.decode size > payload.length then throw invalidCompactMset
    else pure (offset+4, offset+4+BigEndian.decode size)

def parseItems (payload : Bytes) : ℕ → ℕ → List Bytes → Parsing (List Bytes × ℕ)
  | 0, offset, keys => pure (keys, offset)
  | itemCount+1, offset, keys => do
    let (keyStart, keyEnd) ← fieldBounds payload offset
    let key ← read payload keyStart (keyEnd-keyStart)
    let (_, valueEnd) ← fieldBounds payload keyEnd
    parseItems payload itemCount valueEnd (keys++[key])

def parsePairs (payload : Bytes) (itemCount : ℕ) : Parsing (List Bytes) := do
  let (keys, offset) ← parseItems payload itemCount headerSize []
  if offset ≠ payload.length then throw invalidCompactMset else pure keys

def parseCompactMsetPayload : Value → Parsing (List Bytes)
  | .bytes payload =>
    if payload.length < headerSize then throw invalidCompactMset
    else do
      let header ← read payload 0 headerSize
      let marker := BigEndian.decode (slice header 0 1)
      let mode := BigEndian.decode (slice header 1 1)
      let itemCount := BigEndian.decode (slice header 2 4)
      if marker ≠ compactPipelineRequest.toNat ∨ mode ≠ 1 ∨ itemCount = 0 then
        throw invalidCompactMset
      else parsePairs payload itemCount
  | _ => throw invalidCompactMset

/-! The encoder, and what the parser reads back of it. -/

def pairArgs (pairs : List (Bytes × Bytes)) : List Bytes := pairs.flatMap fun p => [p.1, p.2]

/-- The arguments at even positions. -/
def keysOf : List Bytes → List Bytes
  | key::_::args => key::keysOf args
  | _ => []

theorem keysOf_pairArgs (pairs : List (Bytes × Bytes)) :
    keysOf (pairArgs pairs) = pairs.map Prod.fst := by
  induction pairs with
  | nil => rfl
  | cons p pairs ih => exact congrArg (p.1::·) ih

theorem length_pairArgs (pairs : List (Bytes × Bytes)) :
    (pairArgs pairs).length = 2*pairs.length := by
  induction pairs with
  | nil => rfl
  | cons p pairs ih =>
    simp only [pairArgs, List.flatMap_cons, List.length_append, List.length_cons,
      List.length_nil] at ih ⊢
    omega

theorem exists_pairArgs : ∀ args : List Bytes, args.length % 2 = 0 → ∃ pairs, args = pairArgs pairs
  | [], _ => ⟨[], rfl⟩
  | [_], h => by cases h
  | key::value::args, h => by
    have heven : args.length % 2 = 0 := by
      simp only [List.length_cons] at h
      omega
    obtain ⟨pairs, rfl⟩ := exists_pairArgs args heven
    exact ⟨(key, value)::pairs, rfl⟩

def Encodes (args : List Bytes) : Prop := ∀ b ∈ args, b.length ≤ u32Max

theorem each_sequenceArg {args : List Bytes} {used w : ℕ} {parts : List Bytes} :
    Metered.each sequenceArg (args.map Value.bytes) none used = .ok (parts, w) ↔
      Encodes args ∧ args.map binaryWire = parts ∧ used+(args.flatMap binaryWire).length = w := by
  induction args generalizing used w parts with
  | nil => simp [Metered.each, Encodes]
  | cons b args ih =>
    simp only [List.map_cons, Metered.each, sequenceArg, Metered.bind_ok_iff,
      Metered.reserve_ok_iff, compactBinary_ok_iff, Metered.pure_ok_iff, ih, Encodes,
      List.forall_mem_cons, List.flatMap_cons, List.length_append]
    have hlength : (binaryWire b).length = 4+b.length := by simp [binaryWire]
    constructor
    · rintro ⟨_, _, ⟨_, _, rfl, hb, rfl, rfl⟩, _, _, ⟨hargs, rfl, rfl⟩, rfl, rfl⟩
      exact ⟨⟨hb, hargs⟩, rfl, by omega⟩
    · rintro ⟨⟨hb, hargs⟩, rfl, rfl⟩
      exact ⟨_, _, ⟨(), _, rfl, hb, rfl, rfl⟩, _, _, ⟨hargs, rfl, rfl⟩, rfl, by omega⟩

def pairsWire (pairs : List (Bytes × Bytes)) : Bytes :=
  compactPipelineRequest::1::(u32 pairs.length++(pairArgs pairs).flatMap binaryWire)

theorem payload_of_pairs {pairs : List (Bytes × Bytes)} {payload : Bytes} {used : ℕ} :
    compactKvSetPairsPayload ((pairArgs pairs).map Value.bytes) 1 none 0 = .ok (payload, used) ↔
      (pairs ≠ [] ∧ pairs.length ≤ u32Max ∧ Encodes (pairArgs pairs)) ∧
        payload = pairsWire pairs ∧ used = payload.length := by
  unfold compactKvSetPairsPayload
  rw [List.length_map, length_pairArgs]
  cases pairs with
  | nil => simp
  | cons p pairs =>
    have hodd : ¬(2*(p::pairs).length = 0 ∨ 2*(p::pairs).length % 2 ≠ 0) := by
      simp only [List.length_cons]
      omega
    rw [if_neg hodd, Nat.mul_div_cancel_left _ (by decide)]
    simp only [compactBinarySequence, Metered.bind_ok_iff, packPipelineHeader_ok_iff,
      Metered.reserve_ok_iff, Metered.pure_ok_iff, each_sequenceArg, ne_eq, reduceCtorEq,
      not_false_eq_true, true_and]
    constructor
    · rintro ⟨_, _, ⟨⟨-, hn⟩, rfl, rfl⟩, _, _, rfl, _, _, ⟨hargs, rfl, rfl⟩, rfl, rfl⟩
      refine ⟨⟨hn, hargs⟩, ?_, ?_⟩
      · simp [pairsWire, List.flatMap]
      · simp [headerSize, u32, List.flatMap]
        omega
    · rintro ⟨⟨hn, hargs⟩, rfl, rfl⟩
      refine ⟨_, _, ⟨⟨by decide, hn⟩, rfl, rfl⟩, (), _, rfl, _, _, ⟨hargs, rfl, rfl⟩, ?_, ?_⟩
      · simp [pairsWire, List.flatMap]
      · simp [pairsWire, headerSize, u32, List.flatMap]
        omega

section Walk

variable {payload : Bytes} {offset : ℕ}

theorem read_ok (size : ℕ) (reads : List (ℕ × ℕ)) :
    read payload offset size reads =
      .ok (slice payload offset size) (reads++[(offset, size)]) := rfl

theorem fieldBounds_wire {b rest : Bytes} (hb : b.length ≤ u32Max)
    (h : Suffix payload offset (binaryWire b++rest)) (reads : List (ℕ × ℕ)) :
    fieldBounds payload offset reads =
      .ok (offset+4, offset+4+b.length) (reads++[(offset, 4)]) := by
  rw [binaryWire, List.append_assoc] at h
  have hsize : (u32 b.length).length = 4 := BigEndian.encode_length 4 _
  have hslice : slice payload offset 4 = u32 b.length := hsize ▸ h.slice_eq
  have hend := h.advance.available
  rw [hsize] at hend
  have hdecode : BigEndian.decode (u32 b.length) = b.length :=
    BigEndian.decode_encode 4 _ (by simp only [u32Max] at hb; omega)
  rw [fieldBounds, if_neg (by omega), bind_of_ok (read_ok 4 reads), hslice, hdecode,
    if_neg (by omega)]
  rfl

theorem fieldBounds_sound {bounds : ℕ × ℕ} {reads reads' : List (ℕ × ℕ)}
    (h : fieldBounds payload offset reads = .ok bounds reads') :
    ∃ b rest, b.length ≤ u32Max ∧ Suffix payload offset (binaryWire b++rest) ∧
      bounds = (offset+4, offset+4+b.length) := by
  unfold fieldBounds at h
  split_ifs at h with hroom
  · cases h
  · rw [bind_of_ok (read_ok 4 reads)] at h
    split_ifs at h with hfield
    · cases h
    · obtain ⟨rfl, -⟩ := pure_eq_ok h
      obtain ⟨hsize, hs⟩ := @Suffix.of_available _ payload offset 4 (by omega)
      obtain ⟨hlength, hb⟩ := @Suffix.of_available _ payload (offset+4)
        (BigEndian.decode (slice payload offset 4)) (by omega)
      have hlt := BigEndian.decode_lt (slice payload offset 4)
      have hcode := BigEndian.encode_decode (slice payload offset 4)
      rw [hsize] at hlt hcode
      refine ⟨slice payload (offset+4) (BigEndian.decode (slice payload offset 4)),
        payload.drop (offset+4+BigEndian.decode (slice payload offset 4)), ?_,
        ⟨hs.bound, ?_⟩, by rw [hlength]⟩
      · simp only [u32Max]
        omega
      · rw [hs.drop, binaryWire, hlength, u32, hcode, List.append_assoc, ← hb.drop]

theorem advance_field {b rest : Bytes} (h : Suffix payload offset (binaryWire b++rest)) :
    Suffix payload (offset+4+b.length) rest := by
  have ha := h.advance
  rwa [show (binaryWire b).length = 4+b.length by simp [binaryWire, u32], ← Nat.add_assoc] at ha

theorem slice_field {b rest : Bytes} (h : Suffix payload offset (binaryWire b++rest)) :
    slice payload (offset+4) (offset+4+b.length-(offset+4)) = b := by
  rw [binaryWire, List.append_assoc] at h
  have hs := h.advance
  rw [show (u32 b.length).length = 4 from BigEndian.encode_length 4 _] at hs
  rw [Nat.add_sub_cancel_left]
  exact hs.slice_eq

theorem parseItems_wire (pairs : List (Bytes × Bytes)) {offset : ℕ} {rest : Bytes}
    (hfit : Encodes (pairArgs pairs))
    (h : Suffix payload offset ((pairArgs pairs).flatMap binaryWire++rest)) (keys : List Bytes)
    (reads : List (ℕ × ℕ)) :
    ∃ reads', parseItems payload pairs.length offset keys reads =
      .ok (keys++pairs.map Prod.fst, offset+((pairArgs pairs).flatMap binaryWire).length)
        reads' := by
  induction pairs generalizing offset keys reads with
  | nil => exact ⟨reads, by simp [parseItems, pairArgs]⟩
  | cons p pairs ih =>
    have hkey : p.1.length ≤ u32Max := hfit _ (by simp [pairArgs])
    have hvalue : p.2.length ≤ u32Max := hfit _ (by simp [pairArgs])
    have hrest : Encodes (pairArgs pairs) := fun b hb => hfit b (by
      simp only [pairArgs, List.flatMap_cons, List.mem_append]
      exact Or.inr hb)
    have hwire : (pairArgs (p::pairs)).flatMap binaryWire =
        binaryWire p.1++(binaryWire p.2++(pairArgs pairs).flatMap binaryWire) := by
      simp [pairArgs]
    rw [hwire, List.append_assoc, List.append_assoc] at h
    obtain ⟨reads', hloop⟩ := ih hrest (advance_field (advance_field h)) (keys++[p.1])
      ((reads++[(offset, 4)])++[(offset+4, offset+4+p.1.length-(offset+4))]++
        [(offset+4+p.1.length, 4)])
    refine ⟨reads', ?_⟩
    rw [List.length_cons, parseItems, bind_of_ok (fieldBounds_wire hkey h reads)]
    dsimp only
    rw [bind_of_ok (read_ok _ _), slice_field h,
      bind_of_ok (fieldBounds_wire hvalue (advance_field h) _)]
    dsimp only
    rw [hloop, hwire]
    simp only [binaryWire, u32, List.length_append, BigEndian.encode_length, List.map_cons,
      List.append_assoc, List.singleton_append]
    congr 2
    omega

theorem parseItems_sound {itemCount offset final : ℕ} {keys out : List Bytes}
    {reads reads' : List (ℕ × ℕ)} (hoffset : offset ≤ payload.length)
    (h : parseItems payload itemCount offset keys reads = .ok (out, final) reads') :
    ∃ pairs rest, pairs.length = itemCount ∧ Encodes (pairArgs pairs) ∧
      Suffix payload offset ((pairArgs pairs).flatMap binaryWire++rest) ∧
      Suffix payload final rest := by
  induction itemCount generalizing offset keys reads with
  | zero =>
    obtain ⟨he, -⟩ := pure_eq_ok h
    cases he
    exact ⟨[], payload.drop final, rfl, by simp [Encodes, pairArgs], ⟨hoffset, rfl⟩,
      hoffset, rfl⟩
  | succ itemCount ih =>
    rw [parseItems] at h
    obtain ⟨_, _, hk, h⟩ := bind_eq_ok h
    obtain ⟨key, rest, hkey, hs, rfl⟩ := fieldBounds_sound hk
    dsimp only at h
    rw [bind_of_ok (read_ok _ _)] at h
    obtain ⟨_, _, hv, h⟩ := bind_eq_ok h
    obtain ⟨value, rest', hvalue, hs', rfl⟩ := fieldBounds_sound hv
    obtain ⟨pairs, tail, rfl, hfit, ht, hfinal⟩ := ih (advance_field hs').bound h
    refine ⟨(key, value)::pairs, tail, rfl, ?_, ⟨hoffset, ?_⟩, hfinal⟩
    · intro b hb
      simp only [pairArgs, List.flatMap_cons, List.cons_append, List.nil_append,
        List.mem_cons] at hb
      rcases hb with rfl | rfl | hb
      · exact hkey
      · exact hvalue
      · exact hfit b hb
    · have h₁ := (advance_field hs).drop.symm.trans hs'.drop
      have h₂ := (advance_field hs').drop.symm.trans ht.drop
      rw [hs.drop, h₁, h₂]
      simp [pairArgs]

end Walk

/-! The ranges read. -/

def Within (payload : Bytes) (bound : ℕ) (reads : List (ℕ × ℕ)) : Prop :=
  (∀ r ∈ reads, r.1+r.2 ≤ payload.length) ∧ reads.length ≤ bound

section Reads

variable {payload : Bytes}

theorem Within.mono {m n : ℕ} {reads : List (ℕ × ℕ)} (h : Within payload m reads)
    (hmn : m ≤ n) : Within payload n reads := ⟨h.1, h.2.trans hmn⟩

theorem read_within {offset size n : ℕ} (h : offset+size ≤ payload.length)
    {E : Err → List (ℕ × ℕ) → Prop} :
    Contract (Within payload n) (read payload offset size)
      (fun _ => Within payload (n+1)) E := by
  intro reads hreads
  rw [read_ok]
  refine ⟨fun r hr => ?_, ?_⟩
  · rcases List.mem_append.mp hr with hr | hr
    · exact hreads.1 r hr
    · rw [List.mem_singleton.mp hr]
      exact h
  · rw [List.length_append, List.length_singleton]
    exact Nat.succ_le_succ hreads.2

theorem fieldBounds_within {offset n : ℕ} (hoffset : offset ≤ payload.length)
    (hn : n ≤ offset) :
    Contract (Within payload n) (fieldBounds payload offset)
      (fun bounds reads => (bounds.1 = offset+4 ∧ bounds.1 ≤ bounds.2 ∧
        bounds.2 ≤ payload.length) ∧ Within payload (n+1) reads)
      (fun _ => Within payload payload.length) := by
  unfold fieldBounds
  split_ifs with hroom
  · exact Contract.throw fun reads hreads => hreads.mono (by omega)
  · refine Contract.bind (read_within (by omega)) fun size => ?_
    split_ifs with hfield
    · exact Contract.throw fun reads hreads => hreads.mono (by omega)
    · exact Contract.pure fun reads hreads => ⟨⟨rfl, by omega, by omega⟩, hreads⟩

theorem parseItems_within (itemCount : ℕ) {offset : ℕ} (hoffset : offset ≤ payload.length)
    (keys : List Bytes) :
    Contract (Within payload offset) (parseItems payload itemCount offset keys)
      (fun r reads => r.2 ≤ payload.length ∧ Within payload r.2 reads)
      (fun _ => Within payload payload.length) := by
  induction itemCount generalizing offset keys with
  | zero => exact Contract.pure fun reads hreads => ⟨hoffset, hreads⟩
  | succ itemCount ih =>
    refine Contract.bind (fieldBounds_within hoffset le_rfl) fun bounds => ?_
    refine Contract.assuming fun hkey => ?_
    refine Contract.bind (read_within (by omega)) fun key => ?_
    refine Contract.bind (fieldBounds_within hkey.2.2 (by omega)) fun bounds' => ?_
    refine Contract.assuming fun hvalue => ?_
    exact (ih hvalue.2.2 _).weaken (fun reads hreads => hreads.mono (by omega))
      (fun _ _ h => h) fun _ _ h => h

def rangesRead {α : Type} : EStateM.Result Err (List (ℕ × ℕ)) α → List (ℕ × ℕ)
  | .ok _ reads => reads
  | .error _ reads => reads

theorem parseCompactMsetPayload_contract :
    Contract (Within payload 0) (parseCompactMsetPayload (.bytes payload))
      (fun _ => Within payload payload.length) (fun _ => Within payload payload.length) := by
  rw [parseCompactMsetPayload]
  split_ifs with hsize
  · exact Contract.throw fun reads hreads => hreads.mono (Nat.zero_le _)
  · simp only [headerSize] at hsize
    refine Contract.bind (read_within (by simp only [headerSize]; omega)) fun header => ?_
    dsimp only
    split_ifs
    · exact Contract.throw fun reads hreads => hreads.mono (by omega)
    · refine Contract.bind ((parseItems_within _ (by simp only [headerSize]; omega) []).weaken
        (fun reads hreads => hreads.mono (by decide)) (fun _ _ h => h) fun _ _ h => h)
        fun r => ?_
      refine Contract.assuming fun hfinal => ?_
      dsimp only
      split_ifs
      · exact Contract.throw fun reads hreads => hreads.mono hfinal
      · exact Contract.pure fun reads hreads => hreads.mono hfinal

theorem parseCompactMsetPayload_within :
    Within payload payload.length (rangesRead (parseCompactMsetPayload (.bytes payload) [])) := by
  have h := @parseCompactMsetPayload_contract payload [] (by simp [Within])
  cases hrun : parseCompactMsetPayload (.bytes payload) [] with
  | ok keys reads =>
    rw [hrun] at h
    exact h
  | error e reads =>
    rw [hrun] at h
    exact h

end Reads

theorem parsePairs_ok_iff {payload rest : Bytes} {itemCount : ℕ} {keys : List Bytes}
    {reads : List (ℕ × ℕ)} (h : Suffix payload headerSize rest) :
    (∃ reads', parsePairs payload itemCount reads = .ok keys reads') ↔
      ∃ pairs, pairs.length = itemCount ∧ Encodes (pairArgs pairs) ∧
        rest = (pairArgs pairs).flatMap binaryWire ∧ keys = pairs.map Prod.fst := by
  constructor
  · rintro ⟨reads', hparse⟩
    unfold parsePairs at hparse
    obtain ⟨⟨out, final⟩, _, hloop, hparse⟩ := bind_eq_ok hparse
    dsimp only at hparse
    split_ifs at hparse with hfinal
    · cases hparse
    · obtain ⟨rfl, -⟩ := pure_eq_ok hparse
      obtain ⟨pairs, tail, hcount, hfit, hs, ht⟩ := parseItems_sound h.bound hloop
      have htail : tail = [] := by
        have hlength := ht.length
        apply List.length_eq_zero_iff.mp
        omega
      rw [htail, List.append_nil] at hs
      have hs' : Suffix payload headerSize ((pairArgs pairs).flatMap binaryWire++[]) := by
        rwa [List.append_nil]
      obtain ⟨_, hrun⟩ := parseItems_wire pairs hfit hs' [] reads
      rw [hcount, hloop] at hrun
      cases hrun
      exact ⟨pairs, hcount, hfit, h.drop.symm.trans hs.drop, rfl⟩
  · rintro ⟨pairs, rfl, hfit, rfl, rfl⟩
    have hs : Suffix payload headerSize ((pairArgs pairs).flatMap binaryWire++[]) := by
      rwa [List.append_nil]
    obtain ⟨reads', hloop⟩ := parseItems_wire pairs hfit hs [] reads
    refine ⟨reads', ?_⟩
    rw [parsePairs, bind_of_ok hloop]
    dsimp only
    rw [if_neg (not_not.mpr h.length)]
    rfl

/-- What the header must say, byte by byte. -/
theorem parse_header {m o a b c d : UInt8} {rest : Bytes} (keys : List Bytes) :
    (∃ reads, parseCompactMsetPayload (.bytes (m::o::a::b::c::d::rest)) [] = .ok keys reads) ↔
      (m = compactPipelineRequest ∧ o = 1 ∧ BigEndian.decode [a, b, c, d] ≠ 0) ∧
        ∃ reads, parsePairs (m::o::a::b::c::d::rest) (BigEndian.decode [a, b, c, d])
          [(0, headerSize)] = .ok keys reads := by
  have hsize : ¬(m::o::a::b::c::d::rest).length < headerSize := by
    simp [headerSize]
  rw [parseCompactMsetPayload, if_neg hsize, bind_of_ok (read_ok _ _)]
  have hslice : slice (m::o::a::b::c::d::rest) 0 headerSize = [m, o, a, b, c, d] := rfl
  have hone : ∀ x : UInt8, BigEndian.decode [x] = x.toNat := fun x => by simp [BigEndian.decode]
  rw [hslice, show slice [m, o, a, b, c, d] 0 1 = [m] from rfl,
    show slice [m, o, a, b, c, d] 1 1 = [o] from rfl,
    show slice [m, o, a, b, c, d] 2 4 = [a, b, c, d] from rfl, hone, hone]
  have hmarker : m.toNat = compactPipelineRequest.toNat ↔ m = compactPipelineRequest :=
    UInt8.toNat_inj
  have hmode : o.toNat = 1 ↔ o = 1 := @UInt8.toNat_inj o 1
  split_ifs with hbad
  · constructor
    · rintro ⟨reads, h⟩
      cases h
    · rintro ⟨⟨hm, ho, hc⟩, -⟩
      rcases hbad with hbad | hbad | hbad
      · exact absurd (hmarker.mpr hm) hbad
      · exact absurd (hmode.mpr ho) hbad
      · exact absurd hbad hc
  · push Not at hbad
    exact ⟨fun h => ⟨⟨hmarker.mp hbad.1, hmode.mp hbad.2.1, hbad.2.2⟩, h⟩, fun h => h.2⟩

/-- The parser accepts exactly the encodings of non-empty lists of key/value arguments and
returns their keys; whatever the payload declares, it reads inside the payload and at most
as often as the payload has bytes. -/
theorem mset_parser_accepts_encodings (payload : Bytes) :
    (∀ keys, (∃ reads, parseCompactMsetPayload (.bytes payload) [] = .ok keys reads) ↔
      ∃ args : List Bytes, args ≠ [] ∧ args.length % 2 = 0 ∧ keysOf args = keys ∧
        ∃ used, compactKvSetPairsPayload (args.map Value.bytes) 1 none 0 =
          .ok (payload, used)) ∧
    Within payload payload.length (rangesRead (parseCompactMsetPayload (.bytes payload) [])) := by
  refine ⟨fun keys => ⟨?_, ?_⟩, parseCompactMsetPayload_within⟩
  · rintro ⟨reads, h⟩
    rcases payload with _ | ⟨m, _ | ⟨o, _ | ⟨a, _ | ⟨b, _ | ⟨c, _ | ⟨d, rest⟩⟩⟩⟩⟩⟩
    · cases h
    · cases h
    · cases h
    · cases h
    · cases h
    · cases h
    · obtain ⟨⟨rfl, rfl, hcount⟩, hpairs⟩ := (parse_header keys).mp ⟨reads, h⟩
      obtain ⟨pairs, hlength, hfit, hrest, rfl⟩ := (parsePairs_ok_iff ⟨by simp [headerSize],
        rfl⟩).mp hpairs
      have hcode : u32 pairs.length = [a, b, c, d] := by
        rw [hlength]
        exact BigEndian.encode_decode [a, b, c, d]
      have hlt : BigEndian.decode [a, b, c, d] < 256^4 := BigEndian.decode_lt [a, b, c, d]
      have hne : pairs ≠ [] := by
        rintro rfl
        exact hcount hlength.symm
      refine ⟨pairArgs pairs, ?_, ?_, keysOf_pairArgs pairs, _, payload_of_pairs.mpr
        ⟨⟨hne, ?_, hfit⟩, ?_, rfl⟩⟩
      · intro hnil
        have hzero := length_pairArgs pairs
        rw [hnil, List.length_nil] at hzero
        exact hne (List.length_eq_zero_iff.mp (by omega))
      · rw [length_pairArgs]
        omega
      · simp only [u32Max]
        omega
      · rw [pairsWire, hcode, ← hrest]
        rfl
  · rintro ⟨args, -, heven, rfl, used, henc⟩
    obtain ⟨pairs, rfl⟩ := exists_pairArgs args heven
    obtain ⟨⟨hne, hn, hfit⟩, rfl, -⟩ := payload_of_pairs.mp henc
    have hlen : (u32 pairs.length).length = 4 := BigEndian.encode_length 4 _
    have hdecode : BigEndian.decode (u32 pairs.length) = pairs.length :=
      BigEndian.decode_encode 4 _ (by simp only [u32Max] at hn; omega)
    obtain ⟨a, b, c, d, hu⟩ := List.length_eq_four.mp hlen
    rw [hu] at hdecode
    rw [pairsWire, hu, keysOf_pairArgs]
    refine (parse_header _).mpr ⟨⟨rfl, rfl, ?_⟩, ?_⟩
    · rw [hdecode]
      exact fun hzero => hne (List.length_eq_zero_iff.mp hzero)
    · exact (parsePairs_ok_iff ⟨by simp [headerSize], rfl⟩).mpr
        ⟨pairs, hdecode.symm, hfit, rfl, rfl⟩

end FerricStore.CompactMset
