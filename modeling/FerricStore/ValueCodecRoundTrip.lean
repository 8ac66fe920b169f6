import FerricStore.ValueCodec

/-!
# The value codec reads back what it writes

An unbounded write that succeeds appends a byte string which the decoder, at any
offset of any buffer and with the same number of levels left, reads back as the
normal form of the value. The proof is one induction over values, item lists and
map entries; in a map the decoder's keys so far are the encoder's keys so far,
so its duplicate check never fires on an encoding.
-/

set_option autoImplicit false

namespace FerricStore.ValueCodec
open Text Cursor Stateful ValueWriter

def normKey : Key → Key
  | .str s => .bytes (utf8 s)
  | k => k

mutual
/-- What the wire keeps of a value: text as its UTF-8 bytes, a bytearray as the
bytes equal to it, a tuple as a list and every map key as bytes. -/
def norm : Value → Value
  | .str s => .bytes (utf8 s)
  | .bytearray b => .bytes b
  | .list xs => .list (normItems xs)
  | .tuple xs => .list (normItems xs)
  | .dict es => .dict (normEntries es)
  | v => v
def normItems : List Value → List Value
  | [] => []
  | x::xs => norm x::normItems xs
def normEntries : List (Key × Value) → List (Key × Value)
  | [] => []
  | (k, v)::es => (normKey k, norm v)::normEntries es
end

def unbounded (sink : Bytes) : ValueWriter := ⟨none, sink⟩

theorem write_unbounded (sink b : Bytes) :
    write b (unbounded sink) = .ok () (unbounded (sink++b)) := rfl

theorem writeBinaryLength_unbounded (sink : Bytes) (size : ℕ) (w : ValueWriter)
    (h : writeBinaryLength size (unbounded sink) = .ok () w) :
    size < 256^4 ∧ w = unbounded (sink++BigEndian.encode 4 size) := by
  unfold writeBinaryLength at h
  split at h
  · cases h
  · rename_i hs
    rw [write_unbounded] at h
    cases h
    refine ⟨?_, rfl⟩
    simp only [u32Max] at hs
    omega

theorem writeCollectionHeader_unbounded (sink : Bytes) (tag : UInt8) (count : ℕ)
    (w : ValueWriter) (h : writeCollectionHeader tag count (unbounded sink) = .ok () w) :
    count < 256^4 ∧ w = unbounded (sink++(tag::BigEndian.encode 4 count)) := by
  unfold writeCollectionHeader at h
  split at h
  · cases h
  · rename_i hc
    rw [bind_of_ok (write_unbounded sink [tag]), write_unbounded] at h
    cases h
    refine ⟨?_, ?_⟩
    · simp only [u32Max] at hc
      omega
    · rw [List.append_assoc, List.singleton_append]

theorem writeBinary_unbounded (sink b : Bytes) (w : ValueWriter)
    (h : writeBinary b (unbounded sink) = .ok () w) :
    b.length < 256^4 ∧ w = unbounded (sink++(4::(BigEndian.encode 4 b.length++b))) := by
  unfold writeBinary at h
  rw [bind_of_ok (write_unbounded sink [4])] at h
  obtain ⟨_, t, hl, h⟩ := bind_eq_ok h
  obtain ⟨hb, rfl⟩ := writeBinaryLength_unbounded _ _ _ hl
  rw [write_unbounded] at h
  cases h
  exact ⟨hb, by simp⟩

theorem writeStr_unbounded (sink : Bytes) (s : Str) (w : ValueWriter)
    (h : writeStr s (unbounded sink) = .ok () w) :
    writeBinary (utf8 s) (unbounded sink) = .ok () w := by
  have hcap : requireStrCapacity s (unbounded sink) = .ok () (unbounded sink) := rfl
  unfold writeStr at h
  rw [bind_of_ok hcap] at h
  unfold encode at h
  split_ifs at h
  · exact h
  · cases h

theorem readField_suffix {data x rest : Bytes} {offset size : ℕ} (budget : Option ℕ)
    (hx : x.length = size) (h : Suffix data offset (x++rest)) :
    readField data offset size budget = .ok x budget := by
  subst hx
  have ha : ¬ offset+x.length > data.length := by
    have := h.available
    omega
  simp only [readField, requireAvailable, if_neg ha, h.slice_eq]
  rfl

theorem readU32_suffix {data rest : Bytes} {offset n : ℕ} (budget : Option ℕ)
    (hn : n < 256^4) (h : Suffix data offset (BigEndian.encode 4 n++rest)) :
    readU32 data offset budget = .ok n budget := by
  rw [readU32, bind_of_ok (readField_suffix budget (BigEndian.encode_length 4 n) h),
    BigEndian.decode_encode 4 n hn]
  rfl

theorem readBinary_suffix {data b rest : Bytes} {offset : ℕ} (budget : Option ℕ)
    (hb : b.length < 256^4)
    (h : Suffix data offset (BigEndian.encode 4 b.length++(b++rest))) :
    readBinary data offset budget = .ok (b, offset+4+b.length) budget := by
  have ha : Suffix data (offset+4) (b++rest) := by
    simpa using h.advance
  rw [readBinary, bind_of_ok (readU32_suffix budget hb h),
    bind_of_ok (readField_suffix budget rfl ha)]
  rfl

/-- At any offset of any buffer, `b` decodes to `v` and nothing behind it is read. -/
def Spells (levels : ℕ) (b : Bytes) (v : Value) : Prop :=
  ∀ (data rest : Bytes) (offset : ℕ), Suffix data offset (b++rest) →
    decodeValueFrom data levels offset none = .ok (v, offset+b.length) none

theorem decode_tag {data rest : Bytes} {offset levels : ℕ} {tag : UInt8}
    (h : Suffix data offset (tag::rest)) (budget : Option ℕ) :
    decodeValueFrom data (levels+1) offset budget =
      decodeTagged data (decodeValueFrom data levels) tag.toNat (offset+1) budget := by
  have hs : Suffix data offset ([tag]++rest) := h
  have hd : BigEndian.decode [tag] = tag.toNat := by simp [BigEndian.decode]
  rw [decodeValueFrom, bind_of_ok (readField_suffix budget List.length_singleton hs), hd]

theorem spells_tag (levels : ℕ) (tag : UInt8) (b : Bytes) (v : Value)
    (h : ∀ (data rest : Bytes) (offset : ℕ), Suffix data offset (b++rest) →
      decodeTagged data (decodeValueFrom data levels) tag.toNat offset none =
        .ok (v, offset+b.length) none) : Spells (levels+1) (tag::b) v := by
  intro data rest offset hs
  have hs' : Suffix data offset (tag::(b++rest)) := hs
  have ht : Suffix data (offset+1) (b++rest) := Suffix.advance (x := [tag]) hs'
  rw [decode_tag hs', h data rest (offset+1) ht, List.length_cons]
  congr 2
  omega

theorem spells_binary (levels : ℕ) (b : Bytes) (hb : b.length < 256^4) :
    Spells (levels+1) (4::(BigEndian.encode 4 b.length++b)) (.bytes b) := by
  apply spells_tag
  intro data rest offset hs
  rw [List.append_assoc] at hs
  have hr := readBinary_suffix none hb hs
  show (readBinary data offset >>= fun r => pure (Value.bytes r.1, r.2) :
    Decoding (Value × ℕ)) none = _
  rw [bind_of_ok hr]
  simp [Nat.add_assoc]

theorem spells_i64 (levels : ℕ) (n : ℤ) (hlo : i64Min ≤ n) (hhi : n ≤ i64Max) :
    Spells (levels+1) (3::BigEndian.encodeSigned 8 n) (.int n) := by
  apply spells_tag
  intro data rest offset hs
  have hr := readField_suffix none (BigEndian.encodeSigned_length 8 n) hs
  have hd : BigEndian.decodeSigned (BigEndian.encodeSigned 8 n) = n := by
    simp only [i64Min, i64Max] at hlo hhi
    exact BigEndian.decodeSigned_encodeSigned 8 n (by norm_num; omega) (by norm_num; omega)
  rw [BigEndian.encodeSigned_length]
  show (do
    let b ← readField data offset 8
    pure (Value.int (BigEndian.decodeSigned b), offset+8) : Decoding (Value × ℕ)) none = _
  rw [bind_of_ok hr, hd]
  rfl

theorem spells_u64 (levels : ℕ) (n : ℤ) (hlo : i64Max < n) (hhi : n ≤ u64Max) :
    Spells (levels+1) (8::BigEndian.encode 8 n.toNat) (.int n) := by
  apply spells_tag
  intro data rest offset hs
  have hr := readField_suffix none (BigEndian.encode_length 8 n.toNat) hs
  have hd : (BigEndian.decode (BigEndian.encode 8 n.toNat) : ℤ) = n := by
    simp only [i64Max, u64Max] at hlo hhi
    rw [BigEndian.decode_encode 8 n.toNat (by norm_num; omega)]
    omega
  rw [BigEndian.encode_length]
  show (do
    let b ← readField data offset 8
    pure (Value.int (BigEndian.decode b), offset+8) : Decoding (Value × ℕ)) none = _
  rw [bind_of_ok hr, hd]
  rfl

theorem spells_float (levels : ℕ) (bits : BitVec 64) :
    Spells (levels+1) (7::BigEndian.encode 8 bits.toNat) (.float bits) := by
  apply spells_tag
  intro data rest offset hs
  have hr := readField_suffix none (BigEndian.encode_length 8 bits.toNat) hs
  have hd : BitVec.ofNat 64 (BigEndian.decode (BigEndian.encode 8 bits.toNat)) = bits := by
    have hlt := bits.isLt
    rw [BigEndian.decode_encode 8 bits.toNat (by norm_num; omega)]
    simp
  rw [BigEndian.encode_length]
  show (do
    let b ← readField data offset 8
    pure (Value.float (BitVec.ofNat 64 (BigEndian.decode b)), offset+8) :
      Decoding (Value × ℕ)) none = _
  rw [bind_of_ok hr, hd]
  rfl

/-- The three-element branch of the source computes what its loop computes. -/
theorem decodeList_eq (decode : ℕ → Decoding (Value × ℕ)) (count offset : ℕ) :
    decodeList decode count offset = (do
      let (values, offset) ← decodeItems decode count offset
      pure (.list values, offset)) := by
  unfold decodeList
  split_ifs with h
  · subst h
    simp [decodeItems]
  · rfl

theorem consume_unlimited (count : ℕ) : consume count none = .ok () none := rfl

def SpellsItems (levels : ℕ) (b : Bytes) (xs : List Value) : Prop :=
  ∀ (data rest : Bytes) (offset : ℕ), Suffix data offset (b++rest) →
    decodeItems (decodeValueFrom data levels) xs.length offset none =
      .ok (xs, offset+b.length) none

def SpellsEntries (levels : ℕ) (keys : List Bytes) (b : Bytes)
    (es : List (Key × Value)) : Prop :=
  ∀ (data rest : Bytes) (offset : ℕ) (acc : List (Key × Value)),
    acc.map Prod.fst = keys.map Key.bytes → Suffix data offset (b++rest) →
    decodeEntries data (decodeValueFrom data levels) es.length acc offset none =
      .ok (acc++es, offset+b.length) none

theorem spells_list (levels : ℕ) (b : Bytes) (xs : List Value) (hn : xs.length < 256^4)
    (h : SpellsItems levels b xs) :
    Spells (levels+1) (5::(BigEndian.encode 4 xs.length++b)) (.list xs) := by
  apply spells_tag
  intro data rest offset hs
  rw [List.append_assoc] at hs
  have ha : Suffix data (offset+4) (b++rest) := by simpa using hs.advance
  show (do
    let count ← readU32 data offset
    consume count
    decodeList (decodeValueFrom data levels) count (offset+4)) none = _
  rw [bind_of_ok (readU32_suffix none hn hs), bind_of_ok (consume_unlimited _), decodeList_eq,
    bind_of_ok (h data rest (offset+4) ha)]
  simp [Nat.add_assoc]

theorem spells_dict (levels : ℕ) (b : Bytes) (es : List (Key × Value))
    (hn : es.length < 256^4) (h : SpellsEntries levels [] b es) :
    Spells (levels+1) (6::(BigEndian.encode 4 es.length++b)) (.dict es) := by
  apply spells_tag
  intro data rest offset hs
  rw [List.append_assoc] at hs
  have ha : Suffix data (offset+4) (b++rest) := by simpa using hs.advance
  show (do
    let count ← readU32 data offset
    consume count
    let r ← decodeEntries data (decodeValueFrom data levels) count [] (offset+4)
    pure (Value.dict r.1, r.2)) none = _
  rw [bind_of_ok (readU32_suffix none hn hs), bind_of_ok (consume_unlimited _),
    bind_of_ok (h data rest (offset+4) [] rfl ha)]
  simp [Nat.add_assoc]

theorem spellsItems_cons (levels : ℕ) (b c : Bytes) (x : Value) (xs : List Value)
    (hx : Spells levels b x) (hxs : SpellsItems levels c xs) :
    SpellsItems levels (b++c) (x::xs) := by
  intro data rest offset hs
  rw [List.append_assoc] at hs
  rw [List.length_cons, decodeItems, bind_of_ok (hx data _ offset hs)]
  dsimp only
  rw [bind_of_ok (hxs data rest _ hs.advance)]
  simp [Nat.add_assoc]

theorem spellsEntries_cons (levels : ℕ) (keys : List Bytes) (key b c : Bytes) (x : Value)
    (es : List (Key × Value)) (hkey : key.length < 256^4) (hnew : key ∉ keys)
    (hx : Spells levels b x) (hes : SpellsEntries levels (keys++[key]) c es) :
    SpellsEntries levels keys (BigEndian.encode 4 key.length++(key++(b++c)))
      ((.bytes key, x)::es) := by
  intro data rest offset acc hacc hs
  simp only [List.append_assoc] at hs
  have hb : Suffix data (offset+4+key.length) (b++(c++rest)) := by
    simpa [Nat.add_assoc] using (hs.advance).advance
  have hdup : (acc.any fun e => e.1 = .bytes key) = false := by
    rw [List.any_eq_false]
    intro e he hek
    have hm : e.1 ∈ keys.map Key.bytes := hacc ▸ List.mem_map_of_mem he
    obtain ⟨k, hk, hke⟩ := List.mem_map.mp hm
    rw [← hke] at hek
    simp only [Key.bytes.injEq, decide_eq_true_eq] at hek
    exact hnew (hek ▸ hk)
  have hacc' : (acc++[(Key.bytes key, x)]).map Prod.fst = (keys++[key]).map Key.bytes := by
    simp [hacc]
  rw [List.length_cons, decodeEntries, bind_of_ok (readBinary_suffix none hkey hs)]
  simp only [hdup, Bool.false_eq_true, if_false]
  rw [bind_of_ok (hx data _ _ hb)]
  dsimp only
  rw [hes data rest _ _ hacc' hb.advance]
  simp [Nat.add_assoc]

theorem normItems_length (xs : List Value) : (normItems xs).length = xs.length := by
  induction xs with
  | nil => rfl
  | cons x xs ih => simp [normItems, ih]

theorem normEntries_length (es : List (Key × Value)) :
    (normEntries es).length = es.length := by
  induction es with
  | nil => rfl
  | cons e es ih => simp [normEntries, ih]

theorem keyBytes_norm (k : Key) (b : Bytes) (h : keyBytes k = .ok b) :
    normKey k = .bytes b := by
  cases k with
  | bytes c =>
    cases h
    rfl
  | other id => cases h
  | str s =>
    simp only [keyBytes, encode] at h
    split_ifs at h
    · cases h
      rfl
    · cases h

theorem writeInt_spells (n : ℤ) (levels : ℕ) (sink : Bytes) (w : ValueWriter)
    (h : writeInt n (unbounded sink) = .ok () w) :
    ∃ b, w = unbounded (sink++b) ∧ Spells (levels+1) b (.int n) := by
  unfold writeInt at h
  split_ifs at h with hi hu
  · rw [bind_of_ok (write_unbounded sink [3]), write_unbounded] at h
    cases h
    exact ⟨3::BigEndian.encodeSigned 8 n, by simp, spells_i64 levels n hi.1 hi.2⟩
  · rw [bind_of_ok (write_unbounded sink [8]), write_unbounded] at h
    cases h
    exact ⟨8::BigEndian.encode 8 n.toNat, by simp, spells_u64 levels n hu.1 hu.2⟩
  · cases h

theorem writeBinary_spells (b : Bytes) (levels : ℕ) (sink : Bytes) (w : ValueWriter)
    (h : writeBinary b (unbounded sink) = .ok () w) :
    ∃ c, w = unbounded (sink++c) ∧ Spells (levels+1) c (.bytes b) := by
  obtain ⟨hb, rfl⟩ := writeBinary_unbounded sink b w h
  exact ⟨_, rfl, spells_binary levels b hb⟩

theorem writeFloat_spells (bits : BitVec 64) (levels : ℕ) (sink : Bytes) :
    ∃ b, (write [7] >>= fun _ => write (BigEndian.encode 8 bits.toNat)) (unbounded sink) =
      .ok () (unbounded (sink++b)) ∧ Spells (levels+1) b (.float bits) := by
  refine ⟨7::BigEndian.encode 8 bits.toNat, ?_, spells_float levels bits⟩
  rw [bind_of_ok (write_unbounded sink [7]), write_unbounded]
  simp

theorem writeList_spells (xs : List Value) (levels : ℕ) (sink : Bytes) (w : ValueWriter)
    (ih : ∀ (sink : Bytes) (w : ValueWriter),
      writeItems xs levels (unbounded sink) = .ok () w →
      ∃ b, w = unbounded (sink++b) ∧ SpellsItems levels b (normItems xs))
    (h : (writeCollectionHeader 5 xs.length >>= fun _ => writeItems xs levels)
      (unbounded sink) = .ok () w) :
    ∃ b, w = unbounded (sink++b) ∧ Spells (levels+1) b (.list (normItems xs)) := by
  obtain ⟨_, t, hh, h⟩ := bind_eq_ok h
  obtain ⟨hn, rfl⟩ := writeCollectionHeader_unbounded _ _ _ _ hh
  obtain ⟨b, rfl, hb⟩ := ih _ w h
  rw [← normItems_length] at hn ⊢
  exact ⟨_, by simp, spells_list levels b _ hn hb⟩

mutual
theorem writeValue_spells (v : Value) (levels : ℕ) (sink : Bytes) (w : ValueWriter)
    (h : writeValue v levels (unbounded sink) = .ok () w) :
    ∃ b, w = unbounded (sink++b) ∧ Spells levels b (norm v) := by
  match v, levels with
  | v, 0 => cases v <;> cases h
  | .none, levels+1 =>
    cases h
    exact ⟨[0], rfl, spells_tag levels 0 [] _ fun _ _ _ _ => rfl⟩
  | .bool true, levels+1 =>
    cases h
    exact ⟨[1], rfl, spells_tag levels 1 [] _ fun _ _ _ _ => rfl⟩
  | .bool false, levels+1 =>
    cases h
    exact ⟨[2], rfl, spells_tag levels 2 [] _ fun _ _ _ _ => rfl⟩
  | .int n, levels+1 => exact writeInt_spells n levels sink w h
  | .float bits, levels+1 =>
    obtain ⟨b, hb, hs⟩ := writeFloat_spells bits levels sink
    cases hb.symm.trans h
    exact ⟨b, rfl, hs⟩
  | .str s, levels+1 =>
    exact writeBinary_spells (utf8 s) levels sink w (writeStr_unbounded sink s w h)
  | .bytes b, levels+1 => exact writeBinary_spells b levels sink w h
  | .bytearray b, levels+1 => exact writeBinary_spells b levels sink w h
  | .list xs, levels+1 => exact writeList_spells xs levels sink w (writeItems_spells xs levels) h
  | .tuple xs, levels+1 => exact writeList_spells xs levels sink w (writeItems_spells xs levels) h
  | .dict es, levels+1 =>
    rw [writeValue] at h
    obtain ⟨_, t, hh, h⟩ := bind_eq_ok h
    obtain ⟨hn, rfl⟩ := writeCollectionHeader_unbounded _ _ _ _ hh
    obtain ⟨b, rfl, hb⟩ := writeEntries_spells es levels [] _ w h
    rw [← normEntries_length] at hn ⊢
    exact ⟨_, by simp, spells_dict levels b _ hn hb⟩
  | .object _ _, levels+1 => cases h
theorem writeItems_spells (xs : List Value) (levels : ℕ) (sink : Bytes) (w : ValueWriter)
    (h : writeItems xs levels (unbounded sink) = .ok () w) :
    ∃ b, w = unbounded (sink++b) ∧ SpellsItems levels b (normItems xs) := by
  match xs with
  | [] =>
    cases h
    exact ⟨[], by simp, fun data rest offset hs => rfl⟩
  | x::xs =>
    rw [writeItems] at h
    obtain ⟨_, t, hx, h⟩ := bind_eq_ok h
    obtain ⟨b, rfl, hb⟩ := writeValue_spells x levels sink t hx
    obtain ⟨c, rfl, hc⟩ := writeItems_spells xs levels _ w h
    exact ⟨b++c, by simp, spellsItems_cons levels b c _ _ hb hc⟩
theorem writeEntries_spells (es : List (Key × Value)) (levels : ℕ) (keys : List Bytes)
    (sink : Bytes) (w : ValueWriter)
    (h : writeEntries es keys levels (unbounded sink) = .ok () w) :
    ∃ b, w = unbounded (sink++b) ∧ SpellsEntries levels keys b (normEntries es) := by
  match es with
  | [] =>
    cases h
    refine ⟨[], by simp, fun data rest offset acc _ hs => ?_⟩
    simp [normEntries, decodeEntries]
  | (k, x)::es =>
    rw [writeEntries] at h
    cases hk : keyBytes k with
    | error e =>
      rw [hk] at h
      cases h
    | ok key =>
      rw [hk] at h
      dsimp only at h
      split_ifs at h with hnew
      · cases h
      · obtain ⟨_, t, hl, h⟩ := bind_eq_ok h
        obtain ⟨hkey, rfl⟩ := writeBinaryLength_unbounded _ _ _ hl
        rw [bind_of_ok (write_unbounded _ key)] at h
        obtain ⟨_, t, hx, h⟩ := bind_eq_ok h
        obtain ⟨b, rfl, hb⟩ := writeValue_spells x levels _ t hx
        obtain ⟨c, rfl, hc⟩ := writeEntries_spells es levels _ _ w h
        rw [normEntries, keyBytes_norm k key hk]
        exact ⟨_, by simp, spellsEntries_cons levels keys key b c _ _ hkey hnew hb hc⟩
end

theorem encodeValue_spells (v : Value) (b : Bytes) (h : encodeValue v none = .ok b) :
    Spells (maxValueNesting+1) b (norm v) := by
  unfold encodeValue at h
  cases hw : writeValue v (maxValueNesting+1) (unbounded []) with
  | error e w =>
    rw [show (⟨none, []⟩ : ValueWriter) = unbounded [] from rfl, hw] at h
    cases h
  | ok u w =>
    rw [show (⟨none, []⟩ : ValueWriter) = unbounded [] from rfl, hw] at h
    obtain ⟨c, rfl, hc⟩ := writeValue_spells v _ [] w hw
    cases h
    exact hc

theorem spells_ne_nil (levels : ℕ) (b : Bytes) (v : Value) (h : Spells levels b v) :
    b ≠ [] := by
  intro hb
  subst hb
  have hd := h [] [] 0 (Suffix.start [])
  cases levels <;> cases hd

theorem decodeValue_spells (b rest : Bytes) (v : Value)
    (h : Spells (maxValueNesting+1) b v) :
    decodeValue (b++rest) none = .ok (v, rest) := by
  have hb := spells_ne_nil _ b v h
  have hne : ¬ b++rest = [] := by simp [hb]
  have hd := h (b++rest) rest 0 (Suffix.start _)
  rw [decodeValue, if_neg hne, decodeValueAt, hd]
  simp

theorem decodeValue_encodeValue (v : Value) (b rest : Bytes)
    (h : encodeValue v none = .ok b) :
    decodeValue (b++rest) none = .ok (norm v, rest) :=
  decodeValue_spells b rest (norm v) (encodeValue_spells v b h)

/-- Every accepted value is read back in normal form with the suffix untouched,
so equal encodings mean equal normal forms and no encoding continues another. -/
theorem value_codec_round_trip (v : Value) (b : Bytes) (hv : encodeValue v none = .ok b) :
    (∀ rest : Bytes, decodeValue (b++rest) none = .ok (norm v, rest)) ∧
    (∀ (u : Value) (c rest : Bytes), encodeValue u none = .ok c → c = b++rest →
      norm u = norm v ∧ rest = []) := by
  refine ⟨fun rest => decodeValue_encodeValue v b rest hv, ?_⟩
  intro u c rest hu hc
  have hdu := decodeValue_encodeValue u c [] hu
  have hdv := decodeValue_encodeValue v b rest hv
  rw [List.append_nil, hc, hdv] at hdu
  simp only [Except.ok.injEq, Prod.mk.injEq] at hdu
  exact ⟨hdu.1.symm, hdu.2⟩

theorem value_codec_round_trip_map :
    decodeValue ([6, 0, 0, 0, 1, 0, 0, 0, 1, 107, 5, 0, 0, 0, 3, 1, 3,
        255, 255, 255, 255, 255, 255, 255, 254, 4, 0, 0, 0, 2, 195, 169]++[7]) none =
      .ok (.dict [(.bytes [107], .list [.bool true, .int (-2), .bytes [195, 169]])], [7]) :=
  (value_codec_round_trip
    (.dict [(.str [107], .tuple [.bool true, .int (-2), .str [233]])]) _ rfl).1 [7]

end FerricStore.ValueCodec
