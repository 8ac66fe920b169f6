import FerricStore.CompactAcceptance

/-!
# Compact responses

A codec looks at the marker and hands the rest to the decoder of that format. Before, a
preflight compares the number of items with what the caller expects, with the limit and
with the bytes that are left. It never stops an encoded collection. Every codec accepts
exactly its formats, except that the codec of `OK` lists does not look at the marker.
-/

set_option autoImplicit false

namespace FerricStore.CompactCollections
open Text Cursor Stateful Budgets ValueCodec Grammars ValueGrammar
open FlowCodec (nullU32)
open ClaimRowWidths (optionalValue)

/-! ## Formats and their decoders -/

inductive Format where
  | pipeline
  | kvMget
  | kvMgetFixed
  | flowRecordList
  | binaryListList
  | binaryMapList
  | integerList
  | okList
  deriving DecidableEq, Repr

def Format.marker : Format → UInt8
  | .pipeline => compactPipelineResponse
  | .kvMget => compactKvMget
  | .kvMgetFixed => compactKvMgetFixed
  | .flowRecordList => compactFlowRecordList
  | .binaryListList => compactBinaryListList
  | .binaryMapList => compactBinaryMapList
  | .integerList => compactIntegerList
  | .okList => compactOkList

def ok : Value := .bytes (utf8 (lit "OK"))

/-- What stands behind the marker. -/
def Format.body : Format → Grammar Value
  | .pipeline => fun v w c => ∃ items, counted PipelineItem items w c ∧ v = .list items
  | .kvMget => fun v w c =>
    ∃ items, counted presentBinary items w c ∧ v = .list (items.map optionalValue)
  | .kvMgetFixed => fun v w c => ∃ (items : List Bytes) (size : ℕ),
    (∀ b ∈ items, b.length = size) ∧ size < nullU32 ∧ items.length < 256^4 ∧
      w = BigEndian.encode 4 items.length++(BigEndian.encode 4 size++items.flatten) ∧
      c = items.length ∧ v = .list (items.map .bytes)
  | .flowRecordList => fun v w c =>
    ∃ items, counted flowRecord items w c ∧ v = .list (items.map binaryMap)
  | .binaryListList => fun v w c => ∃ items, counted (counted compactBinary) items w c ∧
    v = .list (items.map fun bs => .list (bs.map .bytes))
  | .binaryMapList => fun v w c =>
    ∃ items, counted (countedMap (pair compactBinary compactBinary)) items w c ∧
      v = .list (items.map fun es => binaryMap (es.map fun e => (e.1, .bytes e.2)))
  | .integerList => fun v w c =>
    ∃ items, counted signedInteger items w c ∧ v = .list (items.map .int)
  | .okList => fun v w c =>
    ∃ n, n < 256^4 ∧ w = BigEndian.encode 4 n ∧ c = n ∧ v = .list (List.replicate n ok)

abbrev Decoder := Bytes → ℕ → EStateM Halt (Option ℕ) Value

def okValues : Decoder := fun data offset => do
  let count ← tryDecodeCustomOkList data offset
  pure (.list (List.replicate count ok))

def Format.decode : Format → Decoder
  | .pipeline => tryDecodeCustomPipelineResponse
  | .kvMget => tryDecodeCustomKvMget
  | .kvMgetFixed => tryDecodeCustomKvMgetFixed
  | .flowRecordList => tryDecodeCustomFlowRecordList
  | .binaryListList => tryDecodeCustomBinaryListList
  | .binaryMapList => tryDecodeCustomBinaryMapList
  | .integerList => tryDecodeCustomIntegerList
  | .okList => okValues

section Decoders

variable {data : Bytes} {offset : ℕ} {b b' : Option ℕ} {v : Value}

theorem excepting_ok {α : Type} {declines : Err → Bool}
    {x : Bytes → ℕ → EStateM Halt (Option ℕ) α} {a : α} :
    excepting declines x data offset b = .ok a b' ↔ x data offset b = .ok a b' := by
  unfold excepting
  cases x data offset b with
  | ok a s => rfl
  | error e s => cases e <;> simp

/-- The values of one size, one behind the other. -/
theorem flatten_slices {items : List Bytes} {size : ℕ} (h : ∀ b ∈ items, b.length = size) :
    (List.range items.length).map (fun i => slice items.flatten (i*size) size) = items := by
  induction items with
  | nil => rfl
  | cons x items ih =>
    have hx := h x (List.mem_cons_self ..)
    have hrest := ih fun b hb => h b (List.mem_cons_of_mem x hb)
    rw [List.length_cons, List.range_succ_eq_map, List.map_cons, List.map_map]
    congr 1
    · simp [slice, ← hx]
    · refine Eq.trans ?_ hrest
      refine List.map_congr_left fun i _ => ?_
      simp only [Function.comp, slice, List.flatten_cons, Nat.succ_eq_add_one]
      rw [Nat.add_mul, Nat.one_mul, Nat.add_comm, ← List.drop_drop, ← hx, List.drop_left]

theorem slices_flatten {w : Bytes} {count size : ℕ} (h : w.length = count*size) :
    ((List.range count).map fun i => slice w (i*size) size).flatten = w ∧
      ∀ b ∈ (List.range count).map fun i => slice w (i*size) size, b.length = size := by
  induction count generalizing w with
  | zero =>
    have : w = [] := List.length_eq_zero_iff.mp (by simpa using h)
    simp [this]
  | succ n ih =>
    rw [Nat.add_mul, Nat.one_mul] at h
    have hrest := ih (w := w.drop size) (by rw [List.length_drop]; omega)
    have hshift : ∀ i, slice w ((i+1)*size) size = slice (w.drop size) (i*size) size := by
      intro i
      rw [slice, slice, List.drop_drop, Nat.add_mul, Nat.one_mul, Nat.add_comm]
    rw [List.range_succ_eq_map, List.map_cons, List.map_map, List.flatten_cons]
    simp only [Function.comp_def, Nat.succ_eq_add_one, hshift, Nat.zero_mul, List.forall_mem_cons]
    refine ⟨?_, ?_, hrest.2⟩
    · rw [hrest.1]
      simp [slice]
    · simp only [slice, List.drop_zero, List.length_take]
      omega

theorem fixedValues_accepts (count size : ℕ) : Accepts (fixedValues count size) fun v w c =>
    ∃ items : List Bytes, items.length = count ∧ (∀ b ∈ items, b.length = size) ∧
      size ≠ nullU32 ∧ w = items.flatten ∧ c = 0 ∧ v = .list (items.map .bytes) := by
  intro data offset v b b' hoffset
  have hlength : data.length-offset = (data.drop offset).length := List.length_drop.symm
  have hslice : ∀ i, slice data (offset+i*size) size = slice (data.drop offset) (i*size) size := by
    intro i
    rw [slice, slice, List.drop_drop]
  unfold fixedValues
  by_cases hbad : size = nullU32 ∨ data.length-offset ≠ count*size
  · rw [if_pos hbad]
    refine ⟨fun h => (by cases h), ?_⟩
    rintro ⟨_, ⟨items, rfl, hsize, hnull, hw, -, -⟩, -⟩
    rcases hbad with hbad | hbad
    · exact (hnull hbad).elim
    · refine (hbad ?_).elim
      rw [hlength, hw, List.length_flatten, List.map_congr_left hsize, List.map_const',
        List.sum_replicate, smul_eq_mul]
  · rw [if_neg hbad]
    rw [not_or, not_not, hlength] at hbad
    obtain ⟨hflatten, hsizes⟩ := slices_flatten hbad.2
    have hvalue : (if count = 0 then
        if offset = data.length then pure (.list []) else throw .declined
      else if size = 0 then pure (.list (List.replicate count (.bytes [])))
      else pure (.list ((List.range count).map fun i => .bytes (slice data (offset+i*size) size))) :
        EStateM Halt (Option ℕ) Value) =
        pure (.list (((List.range count).map fun i =>
          slice (data.drop offset) (i*size) size).map .bytes)) := by
      split_ifs with hcount hend hzero
      · simp [hcount]
      · rw [hcount, Nat.zero_mul] at hbad
        omega
      · simp [hzero, slice, List.map_const']
      · simp [hslice, Function.comp_def]
    rw [hvalue, Stateful.pure_apply]
    constructor
    · intro h
      cases h
      exact ⟨0, ⟨_, by simp, hsizes, hbad.1, hflatten.symm, rfl, rfl⟩, fun _ _ => Nat.zero_le _,
        (spend_zero _).symm⟩
    · rintro ⟨c, ⟨items, rfl, hsize, -, hw, rfl, rfl⟩, -, rfl⟩
      rw [hw, flatten_slices hsize, spend_zero]

theorem integerValues_accepts (count : ℕ) : Accepts (integerValues count) fun v w c =>
    ∃ items, items.length = count ∧ Sequence signedInteger items w c ∧
      v = .list (items.map .int) := by
  have hlength : ∀ z w c, signedInteger z w c → w.length = 8 := by
    rintro z w c ⟨-, -, rfl, -⟩
    exact BigEndian.encodeSigned_length 8 z
  have hread := (Reads.integer (Halt.raised .structError) 8).times count
  intro data offset v b b' hoffset
  unfold integerValues
  constructor
  · intro h
    split_ifs at h with hend
    · cases h
    · obtain ⟨⟨items, final⟩, s, hitems, h⟩ := bind_eq_ok h
      obtain ⟨w, rest, c, hs, -, ⟨rfl, hsequence⟩, hb, rfl⟩ := hread.sound hoffset hitems
      obtain ⟨rfl, rfl⟩ := pure_eq_ok h
      have hw := Sequence.length_eq hlength hsequence
      have hrest : rest = [] := by
        have := hs.length
        rw [List.length_append] at this
        exact List.length_eq_zero_iff.mp (by omega)
      rw [hs.drop, hrest, List.append_nil]
      exact ⟨c, ⟨items, rfl, hsequence, rfl⟩, hb, rfl⟩
  · rintro ⟨c, ⟨items, rfl, hsequence, rfl⟩, hb, rfl⟩
    have hw := Sequence.length_eq hlength hsequence
    rw [List.length_drop] at hw
    have hs : Suffix data offset (data.drop offset++[]) := ⟨hoffset, by simp⟩
    rw [if_neg (by omega), bind_of_ok (hread.complete hs ⟨rfl, hsequence⟩ hb)]
    rfl

/-- The list of `OK`s is a byte, whichever it is, and a number. -/
theorem okCount_ok {n : ℕ} : tryDecodeCustomOkList data offset b = .ok n b' ↔ n < 256^4 ∧
    (∃ m, data.drop offset = m::BigEndian.encode 4 n) ∧ Affords b n ∧ b' = spend b n := by
  refine (excepting_ok : excepting isMalformed _ data offset b = _ ↔ _).trans ?_
  constructor
  · intro hn
    split_ifs at hn with hsize
    · cases hn
    · rw [not_not] at hsize
      obtain ⟨⟨k, middle⟩, s, hk, hn⟩ := bind_eq_ok hn
      obtain ⟨⟨u, final⟩, s, hcharge, hn⟩ := bind_eq_ok hn
      obtain ⟨rfl, rfl⟩ := pure_eq_ok hn
      obtain ⟨w, rest, c, hs, rfl, ⟨hlt, rfl, rfl⟩, -, rfl⟩ :=
        (Reads.natural (Halt.raised truncated) 4).sound (by omega) hk
      obtain ⟨_, _, _, -, -, ⟨rfl, rfl⟩, hb, rfl⟩ :=
        (Reads.charge limit k).sound (e := final) hs.available hcharge
      have hrest : rest = [] := by
        have := hs.length
        rw [List.length_append, BigEndian.encode_length] at this
        exact List.length_eq_zero_iff.mp (by omega)
      have hoffset : offset < data.length := by omega
      refine ⟨hlt, ⟨data[offset], ?_⟩, by simpa using hb, by simp⟩
      rw [List.drop_eq_getElem_cons hoffset, hs.drop, hrest, List.append_nil]
  · rintro ⟨hlt, ⟨m, hdrop⟩, hb, rfl⟩
    have hoffset : offset ≤ data.length := by
      by_contra hlt
      rw [List.drop_eq_nil_of_le (by omega)] at hdrop
      cases hdrop
    have hs : Suffix data offset ([m]++(BigEndian.encode 4 n++[])) := ⟨hoffset, by simpa using hdrop⟩
    have hlength := hs.length
    have hn := (Reads.natural (Halt.raised truncated) 4).complete hs.advance ⟨hlt, rfl, rfl⟩
      (b := b) fun _ _ => Nat.zero_le _
    have hcharge := (Reads.charge limit n).complete hs.advance.advance ⟨rfl, rfl⟩ hb (a := ())
    rw [if_neg (by simp at hlength; omega)]
    rw [spend_zero] at hn
    exact (bind_of_ok hn _).trans ((bind_of_ok hcharge _).trans rfl)

/-- Every decoder accepts exactly what stands behind the marker of its format. -/
theorem Format.decode_ok (format : Format) (h : data[offset]? = some format.marker) :
    format.decode data offset b = .ok v b' ↔
      ∃ c, format.body v (data.drop (offset+1)) c ∧ Affords b c ∧ b' = spend b c := by
  obtain ⟨hoffset, hmarker⟩ := List.getElem?_eq_some_iff.mp h
  cases format with
  | pipeline =>
    exact excepting_ok.trans
      (Accepts.whole .declined readPipelineItem_reads.listOf.map hoffset)
  | kvMget => exact Accepts.whole .declined kvMgetItem_reads.listOf.map hoffset
  | kvMgetFixed =>
    have hvalues : ∀ header : Bytes, Accepts _ _ := fun header =>
      Accepts.bind (Reads.charge limit (BigEndian.decode (header.take 4)))
        fun _ => @fixedValues_accepts (BigEndian.decode (header.take 4))
          (BigEndian.decode (header.drop 4))
    refine (Accepts.congr (Accepts.bind (Reads.field .declined 8) hvalues) ?_) hoffset
    intro v w c
    have hnull := nullU32_eq
    constructor
    · rintro ⟨_, w₁, _, _, _, ⟨hheader, rfl, rfl⟩, ⟨_, _, _, ws, cs, ⟨rfl, rfl⟩,
        ⟨items, hcount, hsizes, hne, rfl, rfl, rfl⟩, rfl, rfl⟩, rfl, rfl⟩
      have htake : (w₁.take 4).length = 4 := by simp [hheader]
      have hdrop : (w₁.drop 4).length = 4 := by simp [hheader]
      have hlow := BigEndian.decode_lt (w₁.take 4)
      have hhigh := BigEndian.decode_lt (w₁.drop 4)
      have hfirst := BigEndian.encode_decode (w₁.take 4)
      have hsecond := BigEndian.encode_decode (w₁.drop 4)
      rw [htake] at hlow hfirst
      rw [hdrop] at hhigh hsecond
      refine ⟨items, _, hsizes, by omega, by omega, ?_, by omega, rfl⟩
      rw [hcount, hfirst, hsecond, List.nil_append, ← List.append_assoc, List.take_append_drop]
    · rintro ⟨items, size, hsizes, hsize, hcount, rfl, rfl, rfl⟩
      have hlength := BigEndian.encode_length 4 items.length
      have hfirst : (BigEndian.encode 4 items.length++BigEndian.encode 4 size).take 4 =
          BigEndian.encode 4 items.length := List.take_left' hlength
      have hsecond : (BigEndian.encode 4 items.length++BigEndian.encode 4 size).drop 4 =
          BigEndian.encode 4 size := List.drop_left' hlength
      have hdecode := BigEndian.decode_encode 4 _ hcount
      refine ⟨BigEndian.encode 4 items.length++BigEndian.encode 4 size, _, 0, items.flatten,
        items.length, ⟨by simp, rfl, rfl⟩, ⟨(), [], _, _, 0, ⟨rfl, rfl⟩, ?_, rfl, ?_⟩,
        by rw [List.append_assoc], (Nat.zero_add _).symm⟩
      · rw [hfirst, hsecond, hdecode, BigEndian.decode_encode 4 size (by omega)]
        exact ⟨items, rfl, hsizes, by omega, rfl, rfl, rfl⟩
      · rw [hfirst, hdecode, Nat.add_zero]
  | flowRecordList =>
    have hdrop : data.drop offset = compactFlowRecordList::data.drop (offset+1) := by
      rw [List.drop_eq_getElem_cons hoffset, hmarker]
      rfl
    refine excepting_ok.trans
      ((Accepts.whole .declined readCustomFlowRecordList_reads hoffset.le).trans ?_)
    rw [hdrop]
    simp [CompactCollections.flowRecordList, Format.body]
  | binaryListList =>
    exact excepting_ok.trans (Accepts.whole .declined binaryListItem_reads.listOf.map hoffset)
  | binaryMapList =>
    exact excepting_ok.trans (Accepts.whole .declined binaryMapItem_reads.listOf.map hoffset)
  | integerList =>
    have hvalues : ∀ count : ℕ, Accepts _ _ := fun count =>
      Accepts.bind (Reads.charge limit count) fun _ => @integerValues_accepts count
    show tryDecodeCustomIntegerList data offset b = _ ↔ _
    refine (excepting_ok : excepting isMalformed _ data offset b = _ ↔ _).trans ?_
    show (byte (Halt.raised .indexError) data offset >>= fun r => _) b = _ ↔ _
    rw [bind_of_ok (byte_of_getElem h b)]
    refine (Accepts.congr (Accepts.bind (Reads.natural .declined 4) hvalues) ?_) hoffset
    intro v w c
    constructor
    · rintro ⟨n, _, _, _, _, ⟨hn, rfl, rfl⟩, ⟨_, _, _, ws, cs, ⟨rfl, rfl⟩,
        ⟨items, rfl, hs, rfl⟩, rfl, rfl⟩, rfl, rfl⟩
      exact ⟨items, ⟨_, cs, hn, hs, by simp, by omega⟩, rfl⟩
    · rintro ⟨items, ⟨ws, cs, hn, hs, rfl, rfl⟩, rfl⟩
      exact ⟨items.length, _, 0, ws, _, ⟨hn, rfl, rfl⟩, ⟨(), [], _, ws, cs, ⟨rfl, rfl⟩,
        ⟨items, rfl, hs, rfl⟩, rfl, rfl⟩, rfl, (Nat.zero_add _).symm⟩
  | okList =>
    have hdrop : data.drop offset = compactOkList::data.drop (offset+1) := by
      rw [List.drop_eq_getElem_cons hoffset, hmarker]
      rfl
    constructor
    · intro hv
      obtain ⟨n, s, hn, hv⟩ := bind_eq_ok hv
      obtain ⟨rfl, rfl⟩ := pure_eq_ok hv
      obtain ⟨hlt, ⟨m, hm⟩, hb, rfl⟩ := okCount_ok.mp hn
      rw [hdrop] at hm
      exact ⟨n, ⟨n, hlt, (List.cons.inj hm).2, rfl, rfl⟩, hb, rfl⟩
    · rintro ⟨_, ⟨n, hlt, hbody, rfl, rfl⟩, hb, rfl⟩
      show (tryDecodeCustomOkList data offset >>= fun r => _) b = _
      rw [bind_of_ok (okCount_ok.mpr ⟨hlt, ⟨_, by rw [hdrop, hbody]⟩, hb, rfl⟩)]
      rfl

end Decoders

/-! ## Dispatch -/

def compactFlowClaimJobs : UInt8 := 0x80

/-- `_COMPACT_COLLECTION_MARKERS`. -/
def compactCollectionMarkers : List UInt8 :=
  [compactFlowClaimJobs, compactOkList, compactKvMget, compactFlowRecordList,
    compactBinaryListList, compactBinaryMapList, compactIntegerList, compactKvMgetFixed,
    compactPipelineResponse]

/-- `_COMPACT_COLLECTION_MIN_ITEM_BYTES`. -/
def compactCollectionMinItemBytes : List (UInt8 × ℕ) :=
  [(compactFlowClaimJobs, 20), (compactKvMget, 1), (compactFlowRecordList, 5),
    (compactBinaryListList, 4), (compactBinaryMapList, 4), (compactIntegerList, 8),
    (compactPipelineResponse, 1)]

def requireCompactCollectionCount (count : ℕ) (maxCollectionItems expected : Option ℕ) :
    Except Err Unit := do
  if maxCollectionItems.any (count > ·) then
    throw (.ferricStore "protocol response collection exceeds max_decoded_collection_items")
  match expected with
  | none => pure ()
  | some expected =>
    if count ≠ expected then
      throw (.ferricStore
        s!"protocol response collection returned {count} items; expected {expected}")

/-- `_preflight_compact_collection`. -/
def preflightCompactCollection (data : Bytes) (offset : ℕ)
    (maxCollectionItems expected : Option ℕ) : Except Err Bool :=
  match data[offset]? with
  | none => pure true
  | some marker =>
    if marker ∉ compactCollectionMarkers then pure true
    else if offset+5 > data.length then pure false
    else do
      let count := BigEndian.decode (slice data (offset+1) 4)
      requireCompactCollectionCount count maxCollectionItems expected
      match compactCollectionMinItemBytes.lookup marker with
      | none => pure true
      | some minimum => pure (decide (count ≤ (data.length-(offset+5))/minimum))

/-- The decoders of claim jobs answer with rows or with `None`. -/
def rowsOrNone (x : Bytes → ℕ → Decoding (Option (List (List Value)))) : Decoder :=
  fun data offset b =>
    match x data offset b with
    | .ok (some rows) b' => .ok (.list (rows.map .list)) b'
    | .ok none b' => .error .declined b'
    | .error e b' => .error (.raised e) b'

/-- `_try_decode_custom_kv_get`. -/
def tryDecodeCustomKvGet (data : Bytes) (offset : ℕ) : EStateM Halt (Option ℕ) Value :=
  excepting (fun e => isIndexError e || e.isFerricStoreError) (whole .declined do
    let present ← byte (.raised .indexError)
    if present ≠ 1 then fail .declined
    else do
      let value ← readCompactBinary
      pure (.bytes value)) data (offset+1)

/-- `_try_decode_custom_flow_record`. -/
def tryDecodeCustomFlowRecord : Decoder :=
  excepting isMalformed (whole .declined do
    let record ← readCustomFlowRecord
    pure (binaryMap record))

def pipelineMarkerDecoders : List (UInt8 × Decoder) :=
  [(compactPipelineResponse, tryDecodeCustomPipelineResponse),
    (compactKvMget, tryDecodeCustomKvMget),
    (compactKvMgetFixed, tryDecodeCustomKvMgetFixed),
    (compactFlowRecordList, tryDecodeCustomFlowRecordList),
    (compactFlowClaimJobs, rowsOrNone ClaimRowWidths.tryDecodeCustomClaimJobs),
    (compactBinaryListList, tryDecodeCustomBinaryListList),
    (compactBinaryMapList, tryDecodeCustomBinaryMapList),
    (compactIntegerList, tryDecodeCustomIntegerList),
    (compactOkList, okValues)]

def mgetMarkerDecoders : List (UInt8 × Decoder) :=
  [(compactKvMget, tryDecodeCustomKvMget), (compactKvMgetFixed, tryDecodeCustomKvMgetFixed)]

/-- The decoder of a table that the marker chooses. -/
def byMarker (table : List (UInt8 × Decoder)) : Decoder := fun data offset =>
  match data[offset]?.bind fun marker => table.lookup marker with
  | none => throw .declined
  | some decoder => decoder data offset

def tryFastPipeline : Decoder := byMarker pipelineMarkerDecoders

def tryFastGet : Decoder := byMarker [(compactKvGet, tryDecodeCustomKvGet)]

def tryFastMget : Decoder := byMarker mgetMarkerDecoders

def tryFastFlowRecord : Decoder := byMarker [(compactFlowRecord, tryDecodeCustomFlowRecord)]

def tryFastFlowRecordList : Decoder :=
  byMarker [(compactFlowRecordList, tryDecodeCustomFlowRecordList)]

def tryFastClaim : Decoder := fun data offset =>
  if data[offset]? = some compactFlowClaimJobs then
    rowsOrNone ClaimRowWidths.tryDecodeCustomClaimJobs data offset
  else rowsOrNone TypedClaimRows.tryDecodeClaimJobsCompact data offset

inductive Codec where
  | pipelineV1
  | kvGetV1
  | kvMgetV1
  | flowRecordV1
  | flowRecordListV1
  | flowClaimJobsV1
  | okListV1
  deriving DecidableEq, Repr

def opSet : ℕ := 0x0102
def opMset : ℕ := 0x0105

/-- `_COMPACT_RESPONSE_CODEC_DECODERS`, and the branch that serves `ok_list_v1` before it. -/
def Codec.decoder (opcode : ℕ) : Codec → Decoder
  | .pipelineV1 => tryFastPipeline
  | .kvGetV1 => tryFastGet
  | .kvMgetV1 => tryFastMget
  | .flowRecordV1 => tryFastFlowRecord
  | .flowRecordListV1 => tryFastFlowRecordList
  | .flowClaimJobsV1 => tryFastClaim
  | .okListV1 => fun data offset => do
    let count ← tryDecodeCustomOkList data offset
    if opcode = opSet ∨ opcode = opMset then
      if count = 1 then pure ok else throw .declined
    else pure (.list (List.replicate count ok))

/-- `_try_compact_response_value_at`. -/
def tryCompactResponseValueAt (codec : Codec) (opcode : ℕ) (data : Bytes) (offset : ℕ)
    (maxCollectionItems expected : Option ℕ) : Except Err (Option Value) := do
  if ← preflightCompactCollection data offset maxCollectionItems expected then
    match codec.decoder opcode data offset maxCollectionItems with
    | .ok v _ => pure (some v)
    | .error .declined _ => pure none
    | .error (.raised e) _ => throw e
  else pure none

/-- The formats a codec decodes, claim jobs and single values apart. -/
def Codec.formats : Codec → List Format
  | .pipelineV1 => [.pipeline, .kvMget, .kvMgetFixed, .flowRecordList, .binaryListList,
    .binaryMapList, .integerList, .okList]
  | .kvMgetV1 => [.kvMget, .kvMgetFixed]
  | .flowRecordListV1 => [.flowRecordList]
  | .okListV1 => [.okList]
  | _ => []

def Format.grammar (format : Format) : Grammar Value := fun v w c =>
  ∃ body, w = format.marker::body ∧ format.body v body c

def itemCount : Value → ℕ
  | .list xs => xs.length
  | _ => 0

/-- A list of one `OK` answers a single write. -/
def Answers (codec : Codec) (opcode : ℕ) (u v : Value) : Prop :=
  if codec = .okListV1 ∧ (opcode = opSet ∨ opcode = opMset) then u = .list [ok] ∧ v = ok
  else v = u

/-- What the codec of `OK` lists takes for one: a number behind another byte. -/
def Unmarked (codec : Codec) (opcode : ℕ) (data : Bytes) (offset : ℕ)
    (maxCollectionItems expected : Option ℕ) : Prop :=
  codec = .okListV1 ∧ ∃ m n, m ≠ compactOkList ∧ n < 256^4 ∧
    data.drop offset = m::BigEndian.encode 4 n ∧ Affords maxCollectionItems n ∧
      (opcode = opSet ∨ opcode = opMset → n = 1) ∧
        preflightCompactCollection data offset maxCollectionItems expected = .ok true

section Dispatch

variable {data : Bytes} {offset : ℕ} {b b' : Option ℕ} {u v : Value} {c : ℕ}

theorem Format.marker_inj {f g : Format} (h : f.marker = g.marker) : f = g := by
  cases f <;> cases g <;> first | rfl | exact absurd h (by decide)

theorem lookup_decoders (formats : List Format) (m : UInt8) (decoder : Decoder) :
    (formats.map fun f => (f.marker, f.decode)).lookup m = some decoder ↔
      ∃ f ∈ formats, f.marker = m ∧ f.decode = decoder := by
  induction formats with
  | nil => simp
  | cons f formats ih =>
    rw [List.map_cons, List.lookup_cons]
    by_cases hm : m = f.marker
    · rw [beq_iff_eq.mpr hm]
      constructor
      · intro h
        exact ⟨f, List.mem_cons_self .., hm.symm, Option.some.inj h⟩
      · rintro ⟨g, -, hg, rfl⟩
        rw [Format.marker_inj (hg.trans hm)]
    · rw [beq_eq_false_iff_ne.mpr hm]
      refine ih.trans ?_
      constructor
      · rintro ⟨g, hg, h⟩
        exact ⟨g, List.mem_cons_of_mem f hg, h⟩
      · rintro ⟨g, hg, hmarker, h⟩
        rcases List.mem_cons.mp hg with rfl | hg
        · exact (hm hmarker.symm).elim
        · exact ⟨g, hg, hmarker, h⟩

theorem grammar_iff {f : Format} {m : UInt8} (h : data[offset]? = some m) :
    f.grammar v (data.drop offset) c ↔ f.marker = m ∧ f.body v (data.drop (offset+1)) c := by
  obtain ⟨hoffset, rfl⟩ := List.getElem?_eq_some_iff.mp h
  rw [List.drop_eq_getElem_cons hoffset, Format.grammar]
  constructor
  · rintro ⟨body, hbody, h⟩
    obtain ⟨hmarker, rfl⟩ := List.cons.inj hbody
    exact ⟨hmarker.symm, h⟩
  · rintro ⟨hmarker, h⟩
    exact ⟨_, by rw [hmarker], h⟩

/-- A table of decoders accepts what one of its formats accepts. -/
theorem byMarker_ok {table : List (UInt8 × Decoder)} {formats : List Format}
    (h : ∀ m, data[offset]? = some m →
      table.lookup m = (formats.map fun f => (f.marker, f.decode)).lookup m) :
    byMarker table data offset b = .ok v b' ↔
      ∃ f ∈ formats, ∃ c, f.grammar v (data.drop offset) c ∧ Affords b c ∧ b' = spend b c := by
  unfold byMarker
  cases hm : data[offset]? with
  | none =>
    refine ⟨fun h => (nomatch h), ?_⟩
    rintro ⟨f, -, c, ⟨body, hbody, -⟩, -⟩
    rw [List.drop_eq_nil_of_le (List.getElem?_eq_none_iff.mp hm)] at hbody
    cases hbody
  | some m =>
    rw [Option.bind_some, h m hm]
    simp only [grammar_iff hm]
    cases hdecoder : (formats.map fun f => (f.marker, f.decode)).lookup m with
    | none =>
      refine ⟨fun h => (nomatch h), ?_⟩
      rintro ⟨f, hf, c, ⟨hmarker, -⟩, -⟩
      have := (lookup_decoders formats m f.decode).mpr ⟨f, hf, hmarker, rfl⟩
      rw [hdecoder] at this
      cases this
    | some decoder =>
      obtain ⟨f, hf, rfl, rfl⟩ := (lookup_decoders formats m decoder).mp hdecoder
      refine (f.decode_ok hm).trans ?_
      constructor
      · rintro ⟨c, hbody, hb⟩
        exact ⟨f, hf, c, ⟨rfl, hbody⟩, hb⟩
      · rintro ⟨g, -, c, ⟨hmarker, hbody⟩, hb⟩
        obtain rfl := Format.marker_inj hmarker
        exact ⟨c, hbody, hb⟩

/-- The decoders of every codec but that of `OK` lists accept exactly its formats. -/
theorem Codec.decoder_ok {codec : Codec} {opcode : ℕ} (hcodec : codec.formats ≠ [])
    (hlist : codec ≠ .okListV1)
    (hclaims : codec = .pipelineV1 → data[offset]? ≠ some compactFlowClaimJobs) :
    codec.decoder opcode data offset b = .ok v b' ↔ ∃ f ∈ codec.formats,
      ∃ c, f.grammar v (data.drop offset) c ∧ Affords b c ∧ b' = spend b c := by
  cases codec with
  | pipelineV1 =>
    refine byMarker_ok fun m hm => ?_
    have hne : (m == compactFlowClaimJobs) = false :=
      beq_eq_false_iff_ne.mpr fun h => hclaims rfl (h ▸ hm)
    simp only [pipelineMarkerDecoders, List.lookup_cons, hne]
    rfl
  | kvMgetV1 => exact byMarker_ok fun m _ => rfl
  | flowRecordListV1 => exact byMarker_ok fun m _ => rfl
  | okListV1 => exact (hlist rfl).elim
  | kvGetV1 => exact (hcodec rfl).elim
  | flowRecordV1 => exact (hcodec rfl).elim
  | flowClaimJobsV1 => exact (hcodec rfl).elim

theorem replicate_ok_eq {n : ℕ} : List.replicate n ok = [ok] ↔ n = 1 := by
  constructor
  · intro h
    simpa using congrArg List.length h
  · rintro rfl
    rfl

/-- The codec of `OK` lists answers to a number behind any byte. -/
theorem okListV1_ok {opcode : ℕ} : Codec.okListV1.decoder opcode data offset b = .ok v b' ↔
    ∃ m n, n < 256^4 ∧ data.drop offset = m::BigEndian.encode 4 n ∧ Affords b n ∧
      b' = spend b n ∧ Answers .okListV1 opcode (.list (List.replicate n ok)) v := by
  have hanswers : ∀ n : ℕ, ∀ s : Option ℕ, (if opcode = opSet ∨ opcode = opMset then
        if n = 1 then pure ok else throw .declined
      else pure (.list (List.replicate n ok)) : EStateM Halt (Option ℕ) Value) s = .ok v b' ↔
      b' = s ∧ Answers .okListV1 opcode (.list (List.replicate n ok)) v := by
    intro n s
    simp only [Answers, true_and, Value.list.injEq, replicate_ok_eq]
    split_ifs with hopcode hone
    · simp only [Stateful.pure_apply, EStateM.Result.ok.injEq, hone, true_and]
      exact ⟨fun h => ⟨h.2.symm, h.1.symm⟩, fun h => ⟨h.2.symm, h.1.symm⟩⟩
    · exact ⟨fun h => (nomatch h), fun h => (hone h.2.1).elim⟩
    · simp only [Stateful.pure_apply, EStateM.Result.ok.injEq]
      exact ⟨fun h => ⟨h.2.symm, h.1.symm⟩, fun h => ⟨h.2.symm, h.1.symm⟩⟩
  constructor
  · intro h
    obtain ⟨n, s, hn, h⟩ := bind_eq_ok h
    obtain ⟨hlt, ⟨m, hm⟩, hb, rfl⟩ := okCount_ok.mp hn
    obtain ⟨rfl, hv⟩ := (hanswers n _).mp h
    exact ⟨m, n, hlt, hm, hb, rfl, hv⟩
  · rintro ⟨m, n, hlt, hm, hb, rfl, hv⟩
    show (tryDecodeCustomOkList data offset >>= fun r => _) b = _
    rw [bind_of_ok (okCount_ok.mpr ⟨hlt, ⟨m, hm⟩, hb, rfl⟩)]
    exact (hanswers n _).mpr ⟨rfl, hv⟩

theorem counted_header {α : Type} {G : Grammar α} {as : List α} {w : Bytes} {size : ℕ}
    (h : counted G as w c) (hG : ∀ a w c, G a w c → size ≤ w.length) : ∃ rest,
      w = BigEndian.encode 4 as.length++rest ∧ as.length < 256^4 ∧ as.length ≤ c ∧
        as.length*size ≤ rest.length := by
  obtain ⟨ws, cs, hlt, hs, rfl, rfl⟩ := h
  exact ⟨ws, rfl, hlt, by omega, hs.length_le hG⟩

theorem counted_length {α : Type} {G : Grammar α} {as : List α} {w : Bytes}
    (h : counted G as w c) : 4 ≤ w.length := by
  obtain ⟨ws, cs, -, -, rfl, -⟩ := h
  simp

/-- Every format starts with the number of its items, which have a least size. -/
theorem Format.header (f : Format) {w : Bytes} (h : f.body u w c) : ∃ rest,
    w = BigEndian.encode 4 (itemCount u)++rest ∧ itemCount u < 256^4 ∧ itemCount u ≤ c ∧
      ∀ size, compactCollectionMinItemBytes.lookup f.marker = some size →
        itemCount u*size ≤ rest.length ∧ 0 < size := by
  -- The items of a counted format, with the least size that the table gives.
  have hcounted : ∀ {α : Type} {G : Grammar α} {g : α → Value} {size : ℕ},
      compactCollectionMinItemBytes.lookup f.marker = some size → 0 < size →
      (∀ a w c, G a w c → size ≤ w.length) →
      (∃ items, counted G items w c ∧ u = .list (items.map g)) → ∃ rest,
        w = BigEndian.encode 4 (itemCount u)++rest ∧ itemCount u < 256^4 ∧ itemCount u ≤ c ∧
          ∀ size, compactCollectionMinItemBytes.lookup f.marker = some size →
            itemCount u*size ≤ rest.length ∧ 0 < size := by
    rintro α G g size hsize hpos hG ⟨items, hitems, rfl⟩
    obtain ⟨rest, hw, hlt, hle, hrest⟩ := counted_header hitems hG
    have hcount : itemCount (.list (items.map g)) = items.length := List.length_map ..
    rw [hcount]
    refine ⟨rest, hw, hlt, hle, fun size' hsize' => ?_⟩
    rw [hsize] at hsize'
    cases hsize'
    exact ⟨hrest, hpos⟩
  cases f with
  | pipeline =>
    obtain ⟨items, hitems, rfl⟩ := h
    refine hcounted rfl Nat.one_pos (g := id) ?_ ⟨items, hitems, by simp⟩
    rintro v w c (h | h | h) <;> simp
  | kvMget =>
    refine hcounted rfl Nat.one_pos ?_ h
    rintro (_ | b) w c h
    · simp [h.1]
    · obtain ⟨rest, rfl, -⟩ := h
      simp
  | kvMgetFixed =>
    obtain ⟨items, size, -, -, hlt, rfl, rfl, rfl⟩ := h
    exact ⟨BigEndian.encode 4 size++items.flatten, by simp [itemCount],
      by simpa [itemCount] using hlt, by simp [itemCount], fun _ h => (by cases h)⟩
  | flowRecordList =>
    refine hcounted rfl (by decide) ?_ h
    rintro record w c ⟨fields, body, rfl, hfields, -⟩
    exact Nat.succ_le_succ (counted_length hfields)
  | binaryListList => exact hcounted rfl (by decide) (fun _ _ _ h => counted_length h) h
  | binaryMapList => exact hcounted rfl (by decide) (fun _ _ _ h => counted_length h.2) h
  | integerList =>
    refine hcounted rfl (by decide) ?_ h
    rintro z w c ⟨-, -, rfl, -⟩
    rw [BigEndian.encodeSigned_length]
  | okList =>
    obtain ⟨n, hlt, rfl, rfl, rfl⟩ := h
    exact ⟨[], by simp [itemCount], by simpa [itemCount] using hlt, by simp [itemCount],
      fun _ h => (by cases h)⟩

variable {maxCollectionItems expected : Option ℕ}

theorem requireCompactCollectionCount_ok {count : ℕ} :
    requireCompactCollectionCount count maxCollectionItems expected = .ok () ↔
      Affords maxCollectionItems count ∧ ∀ n, expected = some n → count = n := by
  unfold requireCompactCollectionCount
  by_cases hmax : maxCollectionItems.any (count > ·) = true
  · refine iff_of_false (fun h => ?_) fun h => ?_
    · rw [if_pos hmax] at h
      exact nomatch h
    · obtain ⟨n, hn, hlt⟩ := (Option.any_eq_true ..).mp hmax
      exact Nat.not_lt.mpr (h.1 n hn) (of_decide_eq_true hlt)
  · have hb : Affords maxCollectionItems count := by
      rintro n rfl
      simpa using hmax
    rw [if_neg hmax]
    cases expected with
    | none => exact iff_of_true rfl ⟨hb, fun n hn => nomatch hn⟩
    | some n =>
      by_cases hn : count = n
      · subst hn
        exact iff_of_true (by simp; rfl) ⟨hb, fun n hn => Option.some.inj hn⟩
      · refine iff_of_false (fun h => ?_) fun h => hn (h.2 n rfl)
        simp [hn] at h

/-- The preflight stops an encoded collection only if the caller expects another number. -/
theorem preflight_encoded {f : Format} (hm : data[offset]? = some f.marker)
    (hbody : f.body u (data.drop (offset+1)) c) (hb : Affords maxCollectionItems c) :
    preflightCompactCollection data offset maxCollectionItems expected = .ok true ↔
      ∀ n, expected = some n → itemCount u = n := by
  obtain ⟨rest, hrest, hlt, hle, hsize⟩ := f.header hbody
  obtain ⟨hoffset, hmarker⟩ := List.getElem?_eq_some_iff.mp hm
  have hs : Suffix data (offset+1) (BigEndian.encode 4 (itemCount u)++rest) := ⟨hoffset, hrest⟩
  have hlength := hs.length
  rw [List.length_append, BigEndian.encode_length] at hlength
  have hcount : BigEndian.decode (slice data (offset+1) 4) = itemCount u := by
    have := hs.slice_eq
    rw [BigEndian.encode_length] at this
    rw [this, BigEndian.decode_encode 4 _ hlt]
  have hmarkers : f.marker ∈ compactCollectionMarkers := by
    cases f <;> decide
  have hminimum : (match compactCollectionMinItemBytes.lookup f.marker with
      | none => pure true
      | some minimum => pure (decide (itemCount u ≤ (data.length-(offset+5))/minimum)) :
        Except Err Bool) = .ok true := by
    cases hlookup : compactCollectionMinItemBytes.lookup f.marker with
    | none => rfl
    | some size =>
      obtain ⟨hitems, hpos⟩ := hsize size hlookup
      have : itemCount u ≤ (data.length-(offset+5))/size := by
        rw [Nat.le_div_iff_mul_le hpos]
        omega
      simp only [this, decide_true]
      rfl
  have hrequire : requireCompactCollectionCount (itemCount u) maxCollectionItems expected = .ok () ↔
      ∀ n, expected = some n → itemCount u = n :=
    requireCompactCollectionCount_ok.trans (and_iff_right (hb.mono hle))
  unfold preflightCompactCollection
  rw [hm]
  simp only [hmarkers, not_true_eq_false, if_false, hcount]
  rw [if_neg (by omega), ← hrequire]
  cases requireCompactCollectionCount (itemCount u) maxCollectionItems expected with
  | error e => exact iff_of_false (fun h => (nomatch h)) fun h => (nomatch h)
  | ok _ => exact iff_of_true hminimum rfl

theorem returned_iff {codec : Codec} {opcode : ℕ} :
    tryCompactResponseValueAt codec opcode data offset maxCollectionItems expected =
        .ok (some v) ↔
      preflightCompactCollection data offset maxCollectionItems expected = .ok true ∧
        ∃ left, codec.decoder opcode data offset maxCollectionItems = .ok v left := by
  unfold tryCompactResponseValueAt
  cases preflightCompactCollection data offset maxCollectionItems expected with
  | error e => exact ⟨fun h => (nomatch h), fun h => (nomatch h.1)⟩
  | ok passed =>
    cases passed with
    | false => exact ⟨fun h => (nomatch h), fun h => (nomatch h.1)⟩
    | true =>
      show (match codec.decoder opcode data offset maxCollectionItems with
        | .ok v _ => pure (some v)
        | .error .declined _ => pure none
        | .error (.raised e) _ => throw e : Except Err (Option Value)) = _ ↔ _
      cases codec.decoder opcode data offset maxCollectionItems with
      | ok u left =>
        simp only [EStateM.Result.ok.injEq, true_and, exists_and_left, exists_eq', and_true]
        exact ⟨fun h => by cases h; rfl, fun h => by rw [h]; rfl⟩
      | error e left =>
        cases e with
        | declined => exact ⟨fun h => (nomatch h), fun h => (nomatch h.2)⟩
        | raised e => exact ⟨fun h => (nomatch h), fun h => (nomatch h.2)⟩

/-- The bytes from the offset on are a collection in a format of the codec. -/
def Encodes (codec : Codec) (opcode : ℕ) (data : Bytes) (offset : ℕ)
    (maxCollectionItems expected : Option ℕ) (v : Value) : Prop :=
  ∃ f ∈ codec.formats, ∃ u c, f.grammar u (data.drop offset) c ∧ Affords maxCollectionItems c ∧
    (∀ n, expected = some n → itemCount u = n) ∧ Answers codec opcode u v

theorem encodes_iff {codec : Codec} {opcode : ℕ} :
    Encodes codec opcode data offset maxCollectionItems expected v ↔
      preflightCompactCollection data offset maxCollectionItems expected = .ok true ∧
        ∃ f ∈ codec.formats, ∃ u c, f.grammar u (data.drop offset) c ∧
          Affords maxCollectionItems c ∧ Answers codec opcode u v := by
  have hpreflight : ∀ {f : Format} {u : Value} {c : ℕ}, f.grammar u (data.drop offset) c →
      Affords maxCollectionItems c →
      (preflightCompactCollection data offset maxCollectionItems expected = .ok true ↔
        ∀ n, expected = some n → itemCount u = n) := by
    intro f u c hgrammar hb
    obtain ⟨body, hbody, -⟩ := id hgrammar
    have hoffset : offset < data.length := by
      by_contra hge
      rw [List.drop_eq_nil_of_le (by omega)] at hbody
      cases hbody
    obtain ⟨hmarker, hbody⟩ := (grammar_iff (List.getElem?_eq_getElem hoffset)).mp hgrammar
    exact preflight_encoded (by rw [hmarker, List.getElem?_eq_getElem hoffset]) hbody hb
  constructor
  · rintro ⟨f, hf, u, c, hgrammar, hb, hexpected, hanswer⟩
    exact ⟨(hpreflight hgrammar hb).mpr hexpected, f, hf, u, c, hgrammar, hb, hanswer⟩
  · rintro ⟨hpassed, f, hf, u, c, hgrammar, hb, hanswer⟩
    exact ⟨f, hf, u, c, hgrammar, hb, (hpreflight hgrammar hb).mp hpassed, hanswer⟩

theorem grammar_okList {n : ℕ} {m : UInt8} (hlt : n < 256^4)
    (h : data.drop offset = m::BigEndian.encode 4 n) :
    Format.okList.grammar u (data.drop offset) c ↔
      m = compactOkList ∧ c = n ∧ u = .list (List.replicate n ok) := by
  rw [h]
  constructor
  · rintro ⟨body, hbody, k, hk, rfl, rfl, rfl⟩
    obtain ⟨rfl, hcount⟩ := List.cons.inj hbody
    have hcount := congrArg BigEndian.decode hcount
    rw [BigEndian.decode_encode 4 n hlt, BigEndian.decode_encode 4 _ hk] at hcount
    exact ⟨rfl, hcount.symm, by rw [hcount]⟩
  · rintro ⟨rfl, rfl, rfl⟩
    exact ⟨_, rfl, c, hlt, rfl, rfl, rfl⟩

end Dispatch

/-- Run through the dispatch, the decoders return exactly the values whose encodings in one of
the formats of the codec stand at the offset, unless the codec of `OK` lists finds a number
behind a byte that is not its marker. -/
theorem compact_collections_exact (codec : Codec) (opcode : ℕ) (data : Bytes) (offset : ℕ)
    (maxCollectionItems expected : Option ℕ) (hcodec : codec.formats ≠ [])
    (hclaims : codec = .pipelineV1 → data[offset]? ≠ some compactFlowClaimJobs) :
    (∀ v, tryCompactResponseValueAt codec opcode data offset maxCollectionItems expected =
        .ok (some v) ↔ Encodes codec opcode data offset maxCollectionItems expected v) ↔
      ¬Unmarked codec opcode data offset maxCollectionItems expected := by
  simp only [returned_iff, encodes_iff]
  by_cases hlist : codec = .okListV1
  · subst hlist
    constructor
    · rintro hexact ⟨-, m, n, hm, hlt, hdrop, hb, hone, hpassed⟩
      obtain ⟨v, hv⟩ : ∃ v, Answers .okListV1 opcode (.list (List.replicate n ok)) v := by
        simp only [Answers, true_and]
        split_ifs with hopcode
        · exact ⟨ok, by rw [hone hopcode]; rfl, rfl⟩
        · exact ⟨_, rfl⟩
      obtain ⟨-, f, hf, u, c, hgrammar, -⟩ := (hexact v).mp ⟨hpassed, _,
        okListV1_ok.mpr ⟨m, n, hlt, hdrop, hb, rfl, hv⟩⟩
      obtain rfl := List.mem_singleton.mp hf
      exact hm ((grammar_okList hlt hdrop).mp hgrammar).1
    · intro hmarked v
      refine and_congr_right fun hpassed => ?_
      constructor
      · rintro ⟨left, h⟩
        obtain ⟨m, n, hlt, hdrop, hb, -, hv⟩ := okListV1_ok.mp h
        have hm : m = compactOkList := by
          by_contra hm
          refine hmarked ⟨rfl, m, n, hm, hlt, hdrop, hb, fun hopcode => ?_, hpassed⟩
          rw [Answers, if_pos ⟨rfl, hopcode⟩] at hv
          exact replicate_ok_eq.mp (Value.list.inj hv.1)
        exact ⟨.okList, List.mem_singleton_self _, _, n,
          (grammar_okList hlt hdrop).mpr ⟨hm, rfl, rfl⟩, hb, hv⟩
      · rintro ⟨f, hf, u, c, hgrammar, hb, hv⟩
        obtain rfl := List.mem_singleton.mp hf
        obtain ⟨_, hdrop, n, hlt, rfl, -, -⟩ := id hgrammar
        obtain ⟨-, rfl, rfl⟩ := (grammar_okList hlt hdrop).mp hgrammar
        exact ⟨_, okListV1_ok.mpr ⟨_, c, hlt, hdrop, hb, rfl, hv⟩⟩
  · refine iff_of_true (fun v => and_congr_right fun _ => ?_) fun h => hlist h.1
    simp only [Codec.decoder_ok hcodec hlist hclaims, Answers, hlist, false_and, if_false]
    constructor
    · rintro ⟨_, f, hf, c, hgrammar, hb, rfl⟩
      exact ⟨f, hf, v, c, hgrammar, hb, rfl⟩
    · rintro ⟨f, hf, u, c, hgrammar, hb, rfl⟩
      exact ⟨_, f, hf, c, hgrammar, hb, rfl⟩

/-- An empty map of the value codec is taken for a list without `OK`s. -/
theorem compact_collections_unmarked :
    tryCompactResponseValueAt .okListV1 0x020F [6, 0, 0, 0, 0] 0 none none =
        .ok (some (.list [])) ∧
      ¬Encodes .okListV1 0x020F [6, 0, 0, 0, 0] 0 none none (.list []) := by
  refine ⟨by rfl, ?_⟩
  rintro ⟨f, hf, u, c, ⟨body, hbody, -⟩, -⟩
  obtain rfl := List.mem_singleton.mp hf
  exact absurd (List.cons.inj hbody).1 (by decide)

/-- Two values behind the marker of a table. -/
theorem compact_collections_exact_mget :
    (∀ v, tryCompactResponseValueAt .kvMgetV1 0x0104 [0x83, 0, 0, 0, 2, 0, 1, 0, 0, 0, 1, 65] 0
        (some 2) (some 2) = .ok (some v) ↔
      Encodes .kvMgetV1 0x0104 [0x83, 0, 0, 0, 2, 0, 1, 0, 0, 0, 1, 65] 0 (some 2) (some 2) v) ↔
    ¬Unmarked .kvMgetV1 0x0104 [0x83, 0, 0, 0, 2, 0, 1, 0, 0, 0, 1, 65] 0 (some 2) (some 2) :=
  compact_collections_exact .kvMgetV1 0x0104 [0x83, 0, 0, 0, 2, 0, 1, 0, 0, 0, 1, 65] 0
    (some 2) (some 2) (by decide) (by decide)

end FerricStore.CompactCollections
