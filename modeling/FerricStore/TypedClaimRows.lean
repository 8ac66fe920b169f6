import FerricStore.ClaimRowWidths

/-!
# Typed claim rows and the value codec

A claim response without a marker is a tagged list of rows. The fast path reads the tagged
columns itself and leaves only the attributes to the value codec, from a fresh nesting
limit, and it reads the state of a six column row without a tag. On rows of four and five
columns that stay within the nesting limit of the codec both readers agree; a row of six
columns the codec never reads alike.
-/

set_option autoImplicit false

namespace FerricStore.TypedClaimRows
open Text Cursor Stateful ValueCodec ClaimRowWidths
open FlowCodec (nullU32)

/-! ## The fast path -/

/-- `data[offset]`. -/
def byteAt (data : Bytes) (offset : ℕ) : Decoding UInt8 :=
  match data[offset]? with
  | some b => pure b
  | none => throw .indexError

/-- `_read_tagged_binary`. -/
def readTaggedBinary (data : Bytes) (offset : ℕ) : Decoding (Bytes × ℕ) := do
  let tag ← byteAt data offset
  if tag ≠ 4 then throw (.ferricStore "protocol fast path expected binary")
  else do
    let size ← readU32 data (offset+1)
    let b ← readField data (offset+5) size
    pure (b, offset+5+size)

/-- `_read_tagged_i64`. -/
def readTaggedI64 (data : Bytes) (offset : ℕ) : Decoding (ℤ × ℕ) := do
  let tag ← byteAt data offset
  if tag ≠ 3 then throw (.ferricStore "protocol fast path expected integer")
  else do
    let b ← readField data (offset+1) 8
    pure (BigEndian.decodeSigned b, offset+9)

/-- The body of the row loop; `none` stands for `return None`. -/
def readTypedRow (data : Bytes) (offset : ℕ) : Decoding (Option (List Value) × ℕ) := do
  let tag ← byteAt data offset
  if tag ≠ 5 then pure (none, offset)
  else do
    let width ← readU32 data (offset+1)
    if width ≠ 4 ∧ width ≠ 5 ∧ width ≠ 6 then pure (none, offset)
    else do
      consume width
      let (idValue, offset) ← readTaggedBinary data (offset+5)
      let (partition, offset) ← readTaggedBinary data offset
      let (lease, offset) ← readTaggedBinary data offset
      let (fencing, offset) ← readTaggedI64 data offset
      let (extra, offset) ← readExtraColumns data width offset
      pure (extra.map fun extra =>
        [Value.bytes idValue, .bytes partition, .bytes lease, .int fencing]++extra, offset)

def readTypedRows (data : Bytes) :
    ℕ → List (List Value) → ℕ → Decoding (Option (List (List Value)))
  | 0, items, offset => pure (if offset = data.length then some items else none)
  | count+1, items, offset => do
    let (row, offset) ← readTypedRow data offset
    match row with
    | none => pure none
    | some row => readTypedRows data count (items++[row]) offset

/-- The `except` clauses. -/
def declineInvalid {α : Type} (x : Decoding (Option α)) : Decoding (Option α) := fun budget =>
  match x budget with
  | .ok a left => .ok a left
  | .error .decodedCollectionLimit left => .error .decodedCollectionLimit left
  | .error e left =>
    if e = .indexError ∨ e = .structError ∨ e.isFerricStoreError = true then .ok none left
    else .error e left

/-- `_try_decode_claim_jobs_compact`. -/
def tryDecodeClaimJobsCompact (data : Bytes) (offset : ℕ) :
    Decoding (Option (List (List Value))) :=
  declineInvalid do
    let tag ← byteAt data offset
    if tag ≠ 5 then pure none
    else do
      let count ← readU32 data (offset+1)
      consume count
      readTypedRows data count [] (offset+5)

/-! ## Nesting -/

mutual
/-- The levels a value needs. -/
def levels : Value → ℕ
  | .list xs => 1+itemLevels xs
  | .dict es => 1+entryLevels es
  | _ => 1
def itemLevels : List Value → ℕ
  | [] => 0
  | x::xs => max (levels x) (itemLevels xs)
def entryLevels : List (Key × Value) → ℕ
  | [] => 0
  | (_, x)::es => max (levels x) (entryLevels es)
end

theorem itemLevels_le {xs : List Value} {n : ℕ} : itemLevels xs ≤ n ↔ ∀ x ∈ xs, levels x ≤ n := by
  induction xs with
  | nil => simp [itemLevels]
  | cons x xs ih => simp [itemLevels, ih]

theorem entryLevels_append (es fs : List (Key × Value)) :
    entryLevels (es++fs) = max (entryLevels es) (entryLevels fs) := by
  induction es with
  | nil => simp [entryLevels]
  | cons e es ih => simp [entryLevels, ih, max_assoc]

section Levels

variable {data : Bytes}

/-- A decoder reads values within some levels, and any decoder of enough levels reads them. -/
structure Within (n : ℕ) (decode : ℕ → Decoding (Value × ℕ)) (m : ℕ)
    (decode' : ℕ → Decoding (Value × ℕ)) : Prop where
  levels_le : ∀ {offset : ℕ} {r : Value × ℕ} {b b' : Option ℕ},
    decode offset b = .ok r b' → levels r.1 ≤ n
  again : ∀ {offset : ℕ} {r : Value × ℕ} {b b' : Option ℕ},
    decode offset b = .ok r b' → levels r.1 ≤ m → decode' offset b = .ok r b'

variable {n m : ℕ} {decode decode' : ℕ → Decoding (Value × ℕ)} (h : Within n decode m decode')

include h

theorem Within.items {count offset : ℕ} {r : List Value × ℕ} {b b' : Option ℕ}
    (hitems : decodeItems decode count offset b = .ok r b') :
    itemLevels r.1 ≤ n ∧
      (itemLevels r.1 ≤ m → decodeItems decode' count offset b = .ok r b') := by
  induction count generalizing offset r b with
  | zero =>
    cases hitems
    exact ⟨Nat.zero_le _, fun _ => rfl⟩
  | succ count ih =>
    rw [decodeItems] at hitems
    obtain ⟨v, s, hv, hitems⟩ := bind_eq_ok hitems
    obtain ⟨t, s', ht, hitems⟩ := bind_eq_ok hitems
    obtain ⟨rfl, rfl⟩ := pure_eq_ok hitems
    obtain ⟨hle, hagain⟩ := ih ht
    simp only [itemLevels, max_le_iff]
    refine ⟨⟨h.levels_le hv, hle⟩, fun hm => ?_⟩
    rw [decodeItems, bind_of_ok (h.again hv hm.1)]
    dsimp only
    rw [bind_of_ok (hagain hm.2)]
    rfl

theorem Within.entries {count offset : ℕ} {es : List (Key × Value)}
    {r : List (Key × Value) × ℕ} {b b' : Option ℕ} (hes : entryLevels es ≤ n)
    (hentries : decodeEntries data decode count es offset b = .ok r b') :
    entryLevels r.1 ≤ n ∧ entryLevels es ≤ entryLevels r.1 ∧
      (entryLevels r.1 ≤ m → decodeEntries data decode' count es offset b = .ok r b') := by
  induction count generalizing offset es b with
  | zero =>
    cases hentries
    exact ⟨hes, le_rfl, fun _ => rfl⟩
  | succ count ih =>
    rw [decodeEntries] at hentries
    obtain ⟨key, s, hkey, hentries⟩ := bind_eq_ok hentries
    dsimp only at hentries
    split_ifs at hentries with hin
    · cases hentries
    · obtain ⟨v, s', hv, hentries⟩ := bind_eq_ok hentries
      have hnext : entryLevels (es++[(Key.bytes key.1, v.1)]) = max (entryLevels es) (levels v.1) := by
        simp [entryLevels_append, entryLevels]
      obtain ⟨hle, hmono, hagain⟩ := ih (by rw [hnext]; exact max_le hes (h.levels_le hv)) hentries
      rw [hnext, max_le_iff] at hmono
      refine ⟨hle, hmono.1, fun hm => ?_⟩
      rw [decodeEntries, bind_of_ok hkey]
      dsimp only
      rw [if_neg hin, bind_of_ok (h.again hv (hmono.2.trans hm))]
      exact hagain hm

theorem Within.tagged {tag offset : ℕ} {r : Value × ℕ} {b b' : Option ℕ}
    (htagged : decodeTagged data decode tag offset b = .ok r b') :
    levels r.1 ≤ n+1 ∧
      (levels r.1 ≤ m+1 → decodeTagged data decode' tag offset b = .ok r b') := by
  have hscalar : ∀ {x : Decoding (Value × ℕ)}, x b = .ok r b' → levels r.1 = 1 →
      levels r.1 ≤ n+1 ∧ (levels r.1 ≤ m+1 → x b = .ok r b') :=
    fun hx hr => ⟨by omega, fun _ => hx⟩
  unfold decodeTagged at htagged ⊢
  split at htagged
  · cases htagged
    exact hscalar rfl (by simp [levels])
  · cases htagged
    exact hscalar rfl (by simp [levels])
  · cases htagged
    exact hscalar rfl (by simp [levels])
  · refine hscalar htagged ?_
    obtain ⟨x, _, -, htagged⟩ := bind_eq_ok htagged
    obtain ⟨rfl, -⟩ := pure_eq_ok htagged
    simp [levels]
  · refine hscalar htagged ?_
    obtain ⟨x, _, -, htagged⟩ := bind_eq_ok htagged
    obtain ⟨rfl, -⟩ := pure_eq_ok htagged
    simp [levels]
  · obtain ⟨count, s, hcount, htagged⟩ := bind_eq_ok htagged
    obtain ⟨u, s', hconsume, htagged⟩ := bind_eq_ok htagged
    rw [decodeList_eq] at htagged
    obtain ⟨t, s'', ht, htagged⟩ := bind_eq_ok htagged
    obtain ⟨rfl, rfl⟩ := pure_eq_ok htagged
    obtain ⟨hle, hagain⟩ := h.items ht
    simp only [levels]
    refine ⟨by omega, fun hm => ?_⟩
    rw [bind_of_ok hcount, bind_of_ok hconsume, decodeList_eq,
      bind_of_ok (hagain (by omega))]
    rfl
  · obtain ⟨count, s, hcount, htagged⟩ := bind_eq_ok htagged
    obtain ⟨u, s', hconsume, htagged⟩ := bind_eq_ok htagged
    obtain ⟨t, s'', ht, htagged⟩ := bind_eq_ok htagged
    obtain ⟨rfl, rfl⟩ := pure_eq_ok htagged
    obtain ⟨hle, -, hagain⟩ := h.entries (Nat.zero_le _) ht
    simp only [levels]
    refine ⟨by omega, fun hm => ?_⟩
    rw [bind_of_ok hcount, bind_of_ok hconsume, bind_of_ok (hagain (by omega))]
    rfl
  · refine hscalar htagged ?_
    obtain ⟨x, _, -, htagged⟩ := bind_eq_ok htagged
    obtain ⟨rfl, -⟩ := pure_eq_ok htagged
    simp [levels]
  · refine hscalar htagged ?_
    obtain ⟨x, _, -, htagged⟩ := bind_eq_ok htagged
    obtain ⟨rfl, -⟩ := pure_eq_ok htagged
    simp [levels]
  · cases htagged

end Levels

theorem decodeValueFrom_within (data : Bytes) (n m : ℕ) :
    Within n (decodeValueFrom data n) m (decodeValueFrom data m) := by
  induction n generalizing m with
  | zero => exact ⟨(fun h => nomatch h), (fun h => nomatch h)⟩
  | succ n ih =>
    constructor
    · intro offset r b b' h
      rw [decodeValueFrom] at h
      obtain ⟨tag, s, -, h⟩ := bind_eq_ok h
      exact ((ih 0).tagged h).1
    · intro offset r b b' h hm
      rw [decodeValueFrom] at h
      obtain ⟨tag, s, htag, h⟩ := bind_eq_ok h
      cases m with
      | zero =>
        obtain ⟨v, e⟩ := r
        cases v <;> simp [levels] at hm
      | succ m =>
        rw [decodeValueFrom, bind_of_ok htag]
        exact ((ih m).tagged h).2 hm

/-! ## Columns -/

section Columns

variable {data : Bytes} {n offset : ℕ} {b b' : Option ℕ}

theorem byteAt_ok {t : UInt8} (h : byteAt data offset b = .ok t b') :
    data[offset]? = some t ∧ b = b' := by
  unfold byteAt at h
  cases hx : data[offset]? with
  | none =>
    rw [hx] at h
    cases h
  | some x =>
    rw [hx] at h
    obtain ⟨rfl, rfl⟩ := pure_eq_ok h
    exact ⟨rfl, rfl⟩

theorem suffix_of_byte {t : UInt8} (h : data[offset]? = some t) :
    Suffix data offset (t::data.drop (offset+1)) := by
  obtain ⟨hlt, rfl⟩ := List.getElem?_eq_some_iff.mp h
  exact ⟨hlt.le, List.drop_eq_getElem_cons hlt⟩

/-- Behind its tag byte a value is read as the tag says. -/
theorem decode_byte {t : UInt8} (h : data[offset]? = some t) (b : Option ℕ) :
    decodeValueFrom data (n+1) offset b =
      decodeTagged data (decodeValueFrom data n) t.toNat (offset+1) b :=
  decode_tag (suffix_of_byte h) b

theorem readField_ok {size : ℕ} {x : Bytes} (h : readField data offset size b = .ok x b') :
    x = slice data offset size ∧ offset+size ≤ data.length ∧ b = b' := by
  have hend := readField_within h
  unfold readField requireAvailable at h
  rw [if_neg (by omega)] at h
  obtain ⟨rfl, rfl⟩ := pure_eq_ok h
  exact ⟨rfl, hend, rfl⟩

theorem decode_ok {r : Value × ℕ} (h : decodeValueFrom data (n+1) offset b = .ok r b') :
    ∃ t, data[offset]? = some t ∧
      decodeTagged data (decodeValueFrom data n) t.toNat (offset+1) b = .ok r b' := by
  have hlt : offset < data.length := by
    rw [decodeValueFrom] at h
    obtain ⟨x, _, hx, -⟩ := bind_eq_ok h
    have := readField_within hx
    omega
  have ht := List.getElem?_eq_getElem hlt
  exact ⟨_, ht, by rw [← decode_byte ht, h]⟩

theorem taggedBinary_decode {r : Bytes × ℕ} (h : readTaggedBinary data offset b = .ok r b') :
    decodeValueFrom data (n+1) offset b = .ok (.bytes r.1, r.2) b' ∧ b = b' := by
  unfold readTaggedBinary at h
  obtain ⟨t, s, hbyte, h⟩ := bind_eq_ok h
  obtain ⟨ht, rfl⟩ := byteAt_ok hbyte
  split_ifs at h with htag
  · cases h
  · rw [not_not] at htag
    subst htag
    obtain ⟨size, s, hsize, h⟩ := bind_eq_ok h
    obtain ⟨x, s', hx, h⟩ := bind_eq_ok h
    obtain ⟨rfl, rfl⟩ := pure_eq_ok h
    obtain ⟨y, s'', hy, hpure⟩ := bind_eq_ok hsize
    obtain ⟨-, rfl⟩ := pure_eq_ok hpure
    obtain ⟨-, -, rfl⟩ := readField_ok hy
    obtain ⟨-, -, rfl⟩ := readField_ok hx
    refine ⟨?_, rfl⟩
    rw [decode_byte ht]
    show (readBinary data (offset+1) >>= fun p =>
      (pure (Value.bytes p.1, p.2) : Decoding (Value × ℕ))) b = _
    have hbinary : readBinary data (offset+1) b = .ok (x, offset+5+size) b := by
      rw [readBinary, bind_of_ok hsize, bind_of_ok hx]
      rfl
    rw [bind_of_ok hbinary]
    rfl

theorem taggedI64_decode {r : ℤ × ℕ} (h : readTaggedI64 data offset b = .ok r b') :
    decodeValueFrom data (n+1) offset b = .ok (.int r.1, r.2) b' ∧ b = b' := by
  unfold readTaggedI64 at h
  obtain ⟨t, s, hbyte, h⟩ := bind_eq_ok h
  obtain ⟨ht, rfl⟩ := byteAt_ok hbyte
  split_ifs at h with htag
  · cases h
  · rw [not_not] at htag
    subst htag
    obtain ⟨x, s, hx, h⟩ := bind_eq_ok h
    obtain ⟨rfl, rfl⟩ := pure_eq_ok h
    obtain ⟨-, -, rfl⟩ := readField_ok hx
    refine ⟨?_, rfl⟩
    rw [decode_byte ht]
    show (readField data (offset+1) 8 >>= fun p =>
      (pure (Value.int (BigEndian.decodeSigned p), offset+1+8) : Decoding (Value × ℕ))) b = _
    rw [bind_of_ok hx]
    rfl

/-- Attributes are a map the codec reads. -/
theorem attributes_decode {attrs : Value} {e : ℕ}
    (h : readAttributes data offset b = .ok (some attrs, e) b') :
    (∃ entries, attrs = .dict entries) ∧ decodeValueAt data offset b = .ok (attrs, e) b' := by
  unfold readAttributes at h
  obtain ⟨⟨v, e'⟩, s, hv, h⟩ := bind_eq_ok h
  dsimp only at h
  split at h
  · obtain ⟨heq, rfl⟩ := pure_eq_ok h
    cases heq
    exact ⟨⟨_, rfl⟩, hv⟩
  · obtain ⟨heq, -⟩ := pure_eq_ok h
    cases heq

/-- Only their own tags give nothing, binaries and maps. -/
theorem decodeTagged_tag {decode : ℕ → Decoding (Value × ℕ)} {tag : ℕ} {r : Value × ℕ}
    (h : decodeTagged data decode tag offset b = .ok r b') :
    (r.1 = .none → tag = 0) ∧ (∀ x, r.1 = .bytes x → tag = 4) ∧
      ∀ entries, r.1 = .dict entries → tag = 6 := by
  unfold decodeTagged at h
  split at h
  · cases h
    simp
  · cases h
    simp
  · cases h
    simp
  · obtain ⟨x, _, -, h⟩ := bind_eq_ok h
    obtain ⟨rfl, -⟩ := pure_eq_ok h
    simp
  · obtain ⟨x, _, -, h⟩ := bind_eq_ok h
    obtain ⟨rfl, -⟩ := pure_eq_ok h
    simp
  · obtain ⟨count, _, -, h⟩ := bind_eq_ok h
    obtain ⟨u, _, -, h⟩ := bind_eq_ok h
    rw [decodeList_eq] at h
    obtain ⟨t, _, -, h⟩ := bind_eq_ok h
    obtain ⟨rfl, -⟩ := pure_eq_ok h
    simp
  · obtain ⟨count, _, -, h⟩ := bind_eq_ok h
    obtain ⟨u, _, -, h⟩ := bind_eq_ok h
    obtain ⟨t, _, -, h⟩ := bind_eq_ok h
    obtain ⟨rfl, -⟩ := pure_eq_ok h
    simp
  · obtain ⟨x, _, -, h⟩ := bind_eq_ok h
    obtain ⟨rfl, -⟩ := pure_eq_ok h
    simp
  · obtain ⟨x, _, -, h⟩ := bind_eq_ok h
    obtain ⟨rfl, -⟩ := pure_eq_ok h
    simp
  · cases h

end Columns

/-! ## Rows -/

section Rows

variable {data : Bytes} {offset : ℕ} {b b' : Option ℕ}

theorem slice_encode {size : ℕ} (h : offset+size ≤ data.length) :
    BigEndian.encode size (BigEndian.decode (slice data offset size)) = slice data offset size := by
  have := BigEndian.encode_decode (slice data offset size)
  rwa [(Suffix.of_available h).1] at this

theorem slice_getElem? {size i : ℕ} (hi : i < size) :
    (slice data offset size)[i]? = data[offset+i]? := by
  rw [slice, List.getElem?_take_of_lt hi, List.getElem?_drop]

/-- A slice that is the same one byte later repeats its first byte. -/
theorem shifted {size : ℕ} (hsame : slice data (offset+1) size = slice data offset size) :
    data[offset+size]? = data[offset]? := by
  have hall : ∀ i ≤ size, data[offset+i]? = data[offset]? := by
    intro i
    induction i with
    | zero => exact fun _ => rfl
    | succ i ih =>
      intro hi
      rw [← ih (by omega), ← slice_getElem? (Nat.lt_of_succ_le hi), ← hsame,
        slice_getElem? (Nat.lt_of_succ_le hi)]
      congr 1
      omega
  exact hall size le_rfl

theorem readU32_ok {size : ℕ} (h : readU32 data offset b = .ok size b') :
    size = BigEndian.decode (slice data offset 4) ∧ offset+4 ≤ data.length ∧ b = b' := by
  obtain ⟨x, s, hx, h⟩ := bind_eq_ok h
  obtain ⟨rfl, rfl⟩ := pure_eq_ok h
  obtain ⟨rfl, hend, rfl⟩ := readField_ok hx
  exact ⟨rfl, hend, rfl⟩

/-- The codec reads no untagged run state alike when a map stands behind it. -/
theorem runState_apart {n : ℕ} {state : Option Bytes × ℕ} {attrs : Value} {e e' : ℕ}
    {s s' : Option ℕ} (hstate : readCompactOptionalBinary data offset b = .ok state s)
    (hattrs : readAttributes data state.2 s = .ok (some attrs, e) b') :
    decodeValueFrom data (n+1) offset b ≠ .ok (optionalValue state.1, e') s' := by
  intro h
  obtain ⟨⟨entries, rfl⟩, hattrs⟩ := attributes_decode hattrs
  obtain ⟨t, ht, h⟩ := decode_ok h
  obtain ⟨u, hu, hmap⟩ := decode_ok hattrs
  have hsix := (decodeTagged_tag hmap).2.2 entries rfl
  obtain ⟨hnone, hbytes, -⟩ := decodeTagged_tag h
  unfold readCompactOptionalBinary at hstate
  obtain ⟨size, s₁, hsize, hstate⟩ := bind_eq_ok hstate
  obtain ⟨hdecode, hend, rfl⟩ := readU32_ok hsize
  split_ifs at hstate with hnull
  · obtain ⟨rfl, -⟩ := pure_eq_ok hstate
    have hwide : slice data offset 4 = [255, 255, 255, 255] := by
      rw [← slice_encode hend, ← hdecode, hnull]
      decide
    have hfirst : (slice data offset 4)[0]? = data[offset]? := slice_getElem? (by decide)
    rw [hwide, ht] at hfirst
    cases hfirst
    exact absurd (hnone rfl) (by decide)
  · obtain ⟨x, s₂, hx, hstate⟩ := bind_eq_ok hstate
    obtain ⟨rfl, rfl⟩ := pure_eq_ok hstate
    obtain ⟨hslice, hxend, rfl⟩ := readField_ok hx
    have hlength : x.length = size := by
      rw [hslice]
      exact (Suffix.of_available hxend).1
    have hfour := hbytes x rfl
    rw [hfour] at h
    obtain ⟨⟨y, e₂⟩, s₃, hy, h⟩ := bind_eq_ok h
    obtain ⟨heq, -⟩ := pure_eq_ok h
    cases heq
    obtain ⟨size₂, s₄, hsize₂, hy⟩ := bind_eq_ok hy
    obtain ⟨hdecode₂, hend₂, rfl⟩ := readU32_ok hsize₂
    obtain ⟨z, s₅, hz, hy⟩ := bind_eq_ok hy
    obtain ⟨heq, rfl⟩ := pure_eq_ok hy
    cases heq
    obtain ⟨hslice₂, hzend, rfl⟩ := readField_ok hz
    have hlength₂ : x.length = size₂ := by
      rw [hslice₂]
      exact (Suffix.of_available hzend).1
    have hsame : slice data (offset+1) 4 = slice data offset 4 := by
      rw [← slice_encode hend, ← slice_encode hend₂, ← hdecode, ← hdecode₂, ← hlength, hlength₂]
    -- The length bytes and then the content are the same one byte later, so all are tags.
    have hcontent : data[offset+4]? = data[offset]? := shifted hsame
    have hnext : data[offset+4+size]? = data[offset+4]? := by
      refine shifted ?_
      rw [← hslice, hslice₂, ← hlength₂, hlength]
    rw [hnext, hcontent, ht] at hu
    cases hu
    omega

theorem decodeItems_head {decode : ℕ → Decoding (Value × ℕ)} {v : Value} {e count : ℕ}
    {values : List Value} {final : ℕ} {t : Option ℕ} (h : decode offset b = .ok (v, e) b') :
    decodeItems decode (count+1) offset b = .ok (values, final) t ↔
      ∃ rest, values = v::rest ∧ decodeItems decode count e b' = .ok (rest, final) t := by
  rw [decodeItems, bind_of_ok h]
  constructor
  · intro hitems
    obtain ⟨r, s, hr, hitems⟩ := bind_eq_ok hitems
    obtain ⟨heq, rfl⟩ := pure_eq_ok hitems
    cases heq
    exact ⟨r.1, rfl, hr⟩
  · rintro ⟨rest, rfl, hrest⟩
    dsimp only
    rw [bind_of_ok hrest]
    rfl

theorem decodeItems_first {decode : ℕ → Decoding (Value × ℕ)} {v : Value} {count final : ℕ}
    {rest : List Value} {t : Option ℕ}
    (h : decodeItems decode (count+1) offset b = .ok (v::rest, final) t) :
    ∃ e s, decode offset b = .ok (v, e) s ∧ decodeItems decode count e s = .ok (rest, final) t := by
  rw [decodeItems] at h
  obtain ⟨⟨v', e⟩, s, hv, h⟩ := bind_eq_ok h
  obtain ⟨r, s', hr, h⟩ := bind_eq_ok h
  obtain ⟨heq, rfl⟩ := pure_eq_ok h
  cases heq
  exact ⟨e, s, hv, hr⟩

/-- The four columns of a row, and what the codec reads behind them. -/
theorem columns_decode {n : ℕ} {id partition lease : Bytes × ℕ} {fencing : ℤ × ℕ}
    {s s₁ s₂ s₃ s₄ : Option ℕ} (hid : readTaggedBinary data offset s = .ok id s₁)
    (hpartition : readTaggedBinary data id.2 s₁ = .ok partition s₂)
    (hlease : readTaggedBinary data partition.2 s₂ = .ok lease s₃)
    (hfencing : readTaggedI64 data lease.2 s₃ = .ok fencing s₄) {k final : ℕ}
    {values : List Value} {t : Option ℕ} :
    decodeItems (decodeValueFrom data (n+1)) (k+4) offset s = .ok (values, final) t ↔
      ∃ rest, values =
        [Value.bytes id.1, .bytes partition.1, .bytes lease.1, .int fencing.1]++rest ∧
        decodeItems (decodeValueFrom data (n+1)) k fencing.2 s₄ = .ok (rest, final) t := by
  rw [decodeItems_head (taggedBinary_decode hid).1]
  constructor
  · rintro ⟨rest, rfl, h⟩
    obtain ⟨rest₁, rfl, h₁⟩ := (decodeItems_head (taggedBinary_decode hpartition).1).mp h
    obtain ⟨rest₂, rfl, h₂⟩ := (decodeItems_head (taggedBinary_decode hlease).1).mp h₁
    obtain ⟨rest₃, rfl, h₃⟩ := (decodeItems_head (taggedI64_decode hfencing).1).mp h₂
    exact ⟨rest₃, rfl, h₃⟩
  · rintro ⟨rest, rfl, h⟩
    refine ⟨_, rfl, (decodeItems_head (taggedBinary_decode hpartition).1).mpr ⟨_, rfl, ?_⟩⟩
    refine (decodeItems_head (taggedBinary_decode hlease).1).mpr ⟨_, rfl, ?_⟩
    exact (decodeItems_head (taggedI64_decode hfencing).1).mpr ⟨_, rfl, h⟩

/-- What the fast path reads of a row, the codec reads of its columns. -/
theorem row_decode {row : List Value} {e n : ℕ}
    (h : readTypedRow data offset b = .ok (some row, e) b') :
    (row.length ≠ 6 → (∀ v ∈ row, levels v ≤ n+1) →
      decodeValueFrom data (n+2) offset b = .ok (.list row, e) b') ∧
    ∀ e' s', decodeValueFrom data (n+2) offset b = .ok (.list row, e') s' →
      row.length ≠ 6 ∧ ∀ v ∈ row, levels v ≤ n+1 := by
  unfold readTypedRow at h
  obtain ⟨t, s, hbyte, h⟩ := bind_eq_ok h
  obtain ⟨ht, rfl⟩ := byteAt_ok hbyte
  split_ifs at h with htag
  · cases h
  rw [not_not] at htag
  subst htag
  obtain ⟨width, s, hwidth, h⟩ := bind_eq_ok h
  obtain ⟨-, -, rfl⟩ := readU32_ok hwidth
  split_ifs at h with hkind
  · cases h
  obtain ⟨u, s, hconsume, h⟩ := bind_eq_ok h
  obtain ⟨id, s₁, hid, h⟩ := bind_eq_ok h
  obtain ⟨partition, s₂, hpartition, h⟩ := bind_eq_ok h
  obtain ⟨lease, s₃, hlease, h⟩ := bind_eq_ok h
  obtain ⟨fencing, s₄, hfencing, h⟩ := bind_eq_ok h
  obtain ⟨extra, s₅, hextra, h⟩ := bind_eq_ok h
  obtain ⟨heq, rfl⟩ := pure_eq_ok h
  have hcodec : ∀ e' s', decodeValueFrom data (n+2) offset b = .ok (.list row, e') s' ↔
      decodeItems (decodeValueFrom data (n+1)) width (offset+5) s = .ok (row, e') s' := by
    intro e' s'
    rw [decode_byte ht]
    show (readU32 data (offset+1) >>= fun count => consume count >>= fun _ =>
      decodeList (decodeValueFrom data (n+1)) count (offset+5)) b = _ ↔ _
    rw [bind_of_ok hwidth, bind_of_ok hconsume, decodeList_eq]
    constructor
    · intro hlist
      obtain ⟨r, s'', hr, hlist⟩ := bind_eq_ok hlist
      obtain ⟨heq, rfl⟩ := pure_eq_ok hlist
      cases heq
      exact hr
    · intro hitems
      rw [bind_of_ok hitems]
      rfl
  have hcolumns := @columns_decode data (offset+5) n id partition lease fencing s s₁ s₂ s₃ s₄ hid
    hpartition hlease hfencing
  simp only [hcodec]
  have hscalar : ∀ v ∈ [Value.bytes id.1, .bytes partition.1, .bytes lease.1, .int fencing.1],
      levels v ≤ n+1 := by
    simp [levels]
  obtain rfl | rfl | rfl : width = 4 ∨ width = 5 ∨ width = 6 := by omega
  · cases hextra
    cases heq
    refine ⟨fun _ _ => (hcolumns (k := 0)).mpr ⟨[], rfl, rfl⟩, fun _ _ _ => ⟨by simp, hscalar⟩⟩
  · rw [readExtraColumns_five] at hextra
    obtain ⟨⟨attrs, e₁⟩, s₆, hattrs, hextra⟩ := bind_eq_ok hextra
    obtain ⟨heq', rfl⟩ := pure_eq_ok hextra
    cases heq'
    obtain ⟨attrs, rfl⟩ : ∃ v, attrs = some v := by
      cases attrs with
      | none => cases heq
      | some v => exact ⟨v, rfl⟩
    cases heq
    have hwithin := decodeValueFrom_within data (maxValueNesting+1) (n+1)
    have hvalue := (attributes_decode hattrs).2
    constructor
    · intro _ hlevels
      have hattr := hwithin.again hvalue (hlevels attrs (by simp))
      exact (hcolumns (k := 1)).mpr ⟨[attrs], rfl, (decodeItems_head hattr).mpr ⟨[], rfl, rfl⟩⟩
    · intro e' s' h
      obtain ⟨rest, hrest, hitems⟩ := (hcolumns (k := 1)).mp h
      refine ⟨by simp, fun v hv => ?_⟩
      rcases List.mem_append.mp hv with hv | hv
      · exact hscalar v hv
      · obtain rfl := List.mem_singleton.mp hv
        obtain rfl := List.append_cancel_left hrest
        obtain ⟨e₂, s₇, hv, -⟩ := decodeItems_first hitems
        exact (decodeValueFrom_within data (n+1) 0).levels_le hv
  · rw [readExtraColumns_six] at hextra
    obtain ⟨state, s₆, hstate, hextra⟩ := bind_eq_ok hextra
    obtain ⟨⟨attrs, e₁⟩, s₇, hattrs, hextra⟩ := bind_eq_ok hextra
    obtain ⟨heq', rfl⟩ := pure_eq_ok hextra
    cases heq'
    obtain ⟨attrs, rfl⟩ : ∃ v, attrs = some v := by
      cases attrs with
      | none => cases heq
      | some v => exact ⟨v, rfl⟩
    cases heq
    refine ⟨fun h => absurd rfl h, fun e' s' h => ?_⟩
    obtain ⟨rest, hrest, hitems⟩ := (hcolumns (k := 2)).mp h
    obtain rfl := List.append_cancel_left hrest
    obtain ⟨e₂, s₈, hv, -⟩ := decodeItems_first hitems
    exact absurd hv (runState_apart hstate hattrs)

theorem readTypedRows_extends {count : ℕ} {items result : List (List Value)}
    (h : readTypedRows data count items offset b = .ok (some result) b') :
    ∃ rows, result = items++rows := by
  induction count generalizing items offset b with
  | zero =>
    obtain ⟨heq, -⟩ := pure_eq_ok h
    split_ifs at heq
    cases heq
    exact ⟨[], (List.append_nil _).symm⟩
  | succ count ih =>
    rw [readTypedRows] at h
    obtain ⟨⟨row, e⟩, s, -, h⟩ := bind_eq_ok h
    cases row with
    | none => cases (pure_eq_ok h).1
    | some row =>
      obtain ⟨rows, rfl⟩ := ih h
      exact ⟨row::rows, by simp⟩

/-- The fast path and the codec on the rows of a response, one after the other. -/
theorem rows_decode {count n : ℕ} {items rows : List (List Value)}
    (h : readTypedRows data count items offset b = .ok (some (items++rows)) b') :
    ((∀ row ∈ rows, row.length ≠ 6 ∧ ∀ v ∈ row, levels v ≤ n+1) →
      decodeItems (decodeValueFrom data (n+2)) count offset b =
        .ok (rows.map .list, data.length) b') ∧
    ∀ e' s', decodeItems (decodeValueFrom data (n+2)) count offset b =
      .ok (rows.map .list, e') s' → ∀ row ∈ rows, row.length ≠ 6 ∧ ∀ v ∈ row, levels v ≤ n+1 := by
  induction count generalizing items rows offset b with
  | zero =>
    obtain ⟨heq, rfl⟩ := pure_eq_ok h
    split_ifs at heq with hend
    have hnil : rows = [] := List.self_eq_append_right.mp (Option.some.inj heq)
    subst hnil hend
    exact ⟨fun _ => rfl, fun _ _ _ row hrow => absurd hrow List.not_mem_nil⟩
  | succ count ih =>
    rw [readTypedRows] at h
    obtain ⟨⟨row, e⟩, s, hrow, h⟩ := bind_eq_ok h
    cases row with
    | none => cases (pure_eq_ok h).1
    | some row =>
      obtain ⟨rows', heq⟩ := readTypedRows_extends h
      rw [List.append_assoc] at heq
      obtain rfl := List.append_cancel_left heq
      rw [← List.append_assoc] at h
      obtain ⟨hread, hback⟩ := ih h
      obtain ⟨hfirst, hfirst'⟩ := row_decode (n := n) hrow
      constructor
      · intro hrows
        obtain ⟨hhead, htail⟩ := List.forall_mem_cons.mp hrows
        rw [decodeItems, bind_of_ok (hfirst hhead.1 hhead.2)]
        dsimp only
        rw [bind_of_ok (hread htail)]
        rfl
      · intro e' s' hitems
        obtain ⟨e₁, s₁, hv, hitems⟩ := decodeItems_first hitems
        have hhead := hfirst' e₁ s₁ hv
        have hv' := hfirst hhead.1 hhead.2
        rw [hv] at hv'
        cases hv'
        exact List.forall_mem_cons.mpr ⟨hhead, hback e' s' hitems⟩

end Rows

/-! ## The response -/

theorem declineInvalid_some {α : Type} {x : Decoding (Option α)} {a : α} {b b' : Option ℕ}
    (h : declineInvalid x b = .ok (some a) b') : x b = .ok (some a) b' := by
  unfold declineInvalid at h
  split at h
  · rename_i heq
    cases h
    exact heq
  · cases h
  · split_ifs at h
    cases h

/-- When the fast path accepts a response without rows of six columns, whose attributes stay
within the levels that are left two lists deep, the value codec reads the same rows up to the
end of the data and charges the same. It reads the same rows of no other response. -/
theorem typed_claim_rows_agree (data : Bytes) (offset : ℕ) (budget left : Option ℕ)
    (rows : List (List Value))
    (h : tryDecodeClaimJobsCompact data offset budget = .ok (some rows) left) :
    ((∀ row ∈ rows, row.length ≠ 6 ∧ ∀ v ∈ row, levels v ≤ maxValueNesting-1) →
      decodeValueAt data offset budget = .ok (.list (rows.map .list), data.length) left) ∧
    ∀ final left', decodeValueAt data offset budget = .ok (.list (rows.map .list), final) left' →
      ∀ row ∈ rows, row.length ≠ 6 ∧ ∀ v ∈ row, levels v ≤ maxValueNesting-1 := by
  have h := declineInvalid_some h
  obtain ⟨t, s, hbyte, h⟩ := bind_eq_ok h
  obtain ⟨ht, rfl⟩ := byteAt_ok hbyte
  split_ifs at h with htag
  · cases h
  rw [not_not] at htag
  subst htag
  obtain ⟨count, s, hcount, h⟩ := bind_eq_ok h
  obtain ⟨-, -, rfl⟩ := readU32_ok hcount
  obtain ⟨u, s, hconsume, h⟩ := bind_eq_ok h
  rw [← List.nil_append rows] at h
  obtain ⟨hread, hback⟩ := rows_decode (n := maxValueNesting-2) h
  have hcodec : decodeValueAt data offset budget =
      (decodeItems (decodeValueFrom data maxValueNesting) count (offset+5) >>= fun r =>
        (pure (.list r.1, r.2) : Decoding (Value × ℕ))) s := by
    rw [decodeValueAt, decode_byte ht]
    show (readU32 data (offset+1) >>= fun count => consume count >>= fun _ =>
      decodeList (decodeValueFrom data maxValueNesting) count (offset+5)) budget = _
    rw [bind_of_ok hcount, bind_of_ok hconsume, decodeList_eq]
  rw [hcodec]
  constructor
  · intro hrows
    have hitems : decodeItems (decodeValueFrom data maxValueNesting) count (offset+5) s =
      .ok (rows.map .list, data.length) left := hread hrows
    rw [bind_of_ok hitems]
    rfl
  · intro final left' hvalue
    obtain ⟨⟨values, e⟩, s', hitems, hvalue⟩ := bind_eq_ok hvalue
    obtain ⟨heq, rfl⟩ := pure_eq_ok hvalue
    obtain ⟨hvalues, rfl⟩ := Prod.mk.inj heq
    obtain rfl := Value.list.inj hvalues
    exact hback e s' hitems

/-- One row of five columns. -/
def typedRow : Bytes :=
  [5, 0, 0, 0, 1, 5, 0, 0, 0, 5, 4, 0, 0, 0, 1, 97, 4, 0, 0, 0, 1, 112, 4, 0, 0, 0, 1, 108,
    3, 0, 0, 0, 0, 0, 0, 0, 42, 6, 0, 0, 0, 0]

set_option maxRecDepth 4000 in
theorem typed_claim_rows_agree_five :
    decodeValueAt typedRow 0 (some 6) =
      .ok (.list [.list [.bytes [97], .bytes [112], .bytes [108], .int 42, .dict []]], 42)
        (some 0) :=
  (typed_claim_rows_agree typedRow 0 (some 6) (some 0)
    [[.bytes [97], .bytes [112], .bytes [108], .int 42, .dict []]] rfl).1 (by decide +kernel)

/-- One row of six columns, with an untagged run state. -/
def sixColumnRow : Bytes :=
  [5, 0, 0, 0, 1, 5, 0, 0, 0, 6, 4, 0, 0, 0, 1, 97, 4, 0, 0, 0, 1, 112, 4, 0, 0, 0, 1, 108,
    3, 0, 0, 0, 0, 0, 0, 0, 42, 0, 0, 0, 5, 114, 101, 97, 100, 121, 6, 0, 0, 0, 0]

set_option maxRecDepth 4000 in
/-- The codec reads the first two bytes of the length of the run state as two values. -/
theorem typed_claim_rows_differ :
    tryDecodeClaimJobsCompact sixColumnRow 0 none = .ok (some
      [[.bytes [97], .bytes [112], .bytes [108], .int 42, .bytes [114, 101, 97, 100, 121],
        .dict []]]) none ∧
    decodeValueAt sixColumnRow 0 none = .ok (.list
      [.list [.bytes [97], .bytes [112], .bytes [108], .int 42, .none, .none]], 39) none ∧
    sixColumnRow.length = 51 :=
  ⟨rfl, rfl, rfl⟩

end FerricStore.TypedClaimRows
