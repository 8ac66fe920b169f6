import FerricStore.CompactAcceptance

/-!
# Flow-record values and tagged lists

The values of a flow record and the lists of binaries have readers of their own beside the
value codec. Below the length that stands for null both readers of a record value return the
same values, offsets and budgets. A list that the fast reader returns is the list that the
codec reads.
-/

set_option autoImplicit false

namespace FerricStore.FlowRecordReaders
open Cursor Stateful ValueCodec Grammars ValueGrammar TypedClaimRows CompactCollections
open FlowCodec (nullU32)

/-! ## The tagged list -/

/-- The loop of `_try_decode_binary_list`. -/
def readListedBinaries (data : Bytes) : ℕ → List Bytes → ℕ → Decoding (List Bytes × ℕ)
  | 0, items, offset => pure (items, offset)
  | count+1, items, offset => do
    let (item, offset) ← readTaggedBinary data offset
    readListedBinaries data count (items++[item]) offset

/-- `_try_decode_binary_list`. -/
def tryDecodeBinaryList (data : Bytes) (offset : ℕ) : Decoding (Option (List Bytes)) :=
  declineInvalid do
    let tag ← byteAt data offset
    if tag ≠ 5 then pure none
    else do
      let count ← readU32 data (offset+1)
      consume count
      let (items, offset) ← readListedBinaries data count [] (offset+5)
      pure (if offset = data.length then some items else none)

theorem listedBinaries_decode {data : Bytes} {n count : ℕ} {items result : List Bytes}
    {offset final : ℕ} {b b' : Option ℕ}
    (h : readListedBinaries data count items offset b = .ok (result, final) b') :
    ∃ new, result = items++new ∧
      decodeItems (decodeValueFrom data (n+1)) count offset b = .ok (new.map .bytes, final) b' := by
  induction count generalizing items offset b with
  | zero =>
    obtain ⟨heq, rfl⟩ := pure_eq_ok h
    cases heq
    exact ⟨[], (List.append_nil _).symm, rfl⟩
  | succ count ih =>
    rw [readListedBinaries] at h
    obtain ⟨item, s, hitem, h⟩ := bind_eq_ok h
    obtain ⟨new, rfl, hnew⟩ := ih h
    refine ⟨item.1::new, by simp, ?_⟩
    exact (decodeItems_head (taggedBinary_decode hitem).1).mpr ⟨_, rfl, hnew⟩

theorem tryDecodeBinaryList_decode {data : Bytes} {offset : ℕ} {items : List Bytes}
    {b b' : Option ℕ} (h : tryDecodeBinaryList data offset b = .ok (some items) b') :
    decodeValueAt data offset b = .ok (.list (items.map .bytes), data.length) b' := by
  have h := declineInvalid_some h
  obtain ⟨t, s, hbyte, h⟩ := bind_eq_ok h
  obtain ⟨ht, rfl⟩ := byteAt_ok hbyte
  split_ifs at h with htag
  · cases h
  rw [not_not] at htag
  subst htag
  obtain ⟨count, s, hcount, h⟩ := bind_eq_ok h
  obtain ⟨u, s', hconsume, h⟩ := bind_eq_ok h
  obtain ⟨⟨result, final⟩, s'', hitems, h⟩ := bind_eq_ok h
  obtain ⟨hend, rfl⟩ := pure_eq_ok h
  split_ifs at hend with hfinal
  cases hend
  subst hfinal
  obtain ⟨new, heq, hnew⟩ := listedBinaries_decode (n := maxValueNesting-1) hitems
  obtain rfl : items = new := heq
  rw [decodeValueAt, decode_byte ht]
  show (readU32 data (offset+1) >>= fun count => consume count >>= fun _ =>
    decodeList (decodeValueFrom data maxValueNesting) count (offset+5)) b = _
  rw [bind_of_ok hcount, bind_of_ok hconsume, decodeList_eq]
  have hnew : decodeItems (decodeValueFrom data maxValueNesting) count (offset+5) s' =
      .ok (items.map .bytes, data.length) s'' := hnew
  rw [bind_of_ok hnew]
  rfl

/-! ## The values of a record -/

/-- A binary is shorter than the data it is read from. -/
theorem valueParser_bytes {data : Bytes} {n offset final : ℕ} {x : Bytes} {b b' : Option ℕ}
    (h : valueParser n data offset b = .ok (.bytes x, final) b') : x.length ≤ data.length := by
  by_cases hoffset : offset ≤ data.length
  · obtain ⟨w, rest, c, hs, -, hg, -⟩ := (valueParser_reads n).sound hoffset h
    cases n with
    | zero => exact hg.elim
    | succ n =>
      cases hg with
      | binary hb =>
        obtain ⟨-, rfl, -⟩ := hb
        have hlength := hs.length
        simp only [List.length_append, List.length_cons] at hlength
        omega
  · cases n with
    | zero => exact nomatch h
    | succ n =>
      obtain ⟨t, ht, -⟩ := decode_ok h
      have := (List.getElem?_eq_some_iff.mp ht).1
      omega

/-- Below the null length a record value is what the value codec reads. -/
theorem flowRecordValue_codec {data : Bytes} (hdata : data.length < nullU32) {offset : ℕ}
    {r : Value × ℕ} {b b' : Option ℕ} :
    decodeFlowRecordValueAt data offset b = .ok r b' ↔ decodeValueAt data offset b = .ok r b' := by
  refine flowRecordValue_iff.trans ⟨And.left, fun h => ⟨h, ?_⟩⟩
  obtain ⟨v, final⟩ := r
  rintro x rfl
  exact ((valueParser_bytes h).trans_lt hdata).ne

/-- On data below the null length the reader of record values returns what the codec returns,
with the same end and the same budget left, and fails where the codec fails. A list that the
fast reader of binaries returns is the value of the codec, up to the end of the data. -/
theorem flow_record_readers_agree (data : Bytes) (hdata : data.length < 2^32-1) (offset : ℕ)
    (budget : Option ℕ) :
    (∀ value left, decodeFlowRecordValueAt data offset budget = .ok value left ↔
      decodeValueAt data offset budget = .ok value left) ∧
    ((∃ e left, decodeFlowRecordValueAt data offset budget = .error e left) ↔
      ∃ e left, decodeValueAt data offset budget = .error e left) ∧
    ∀ items left, tryDecodeBinaryList data offset budget = .ok (some items) left →
      decodeValueAt data offset budget = .ok (.list (items.map .bytes), data.length) left := by
  have hread : ∀ value left, decodeFlowRecordValueAt data offset budget = .ok value left ↔
      decodeValueAt data offset budget = .ok value left :=
    fun _ _ => flowRecordValue_codec hdata
  refine ⟨hread, ?_, fun items left => tryDecodeBinaryList_decode⟩
  cases hfast : decodeFlowRecordValueAt data offset budget with
  | ok value left => simp [(hread value left).mp hfast]
  | error e left =>
    cases hcodec : decodeValueAt data offset budget with
    | ok value left => exact nomatch hfast.symm.trans ((hread value left).mpr hcodec)
    | error e' left' => exact ⟨fun _ => ⟨_, _, rfl⟩, fun _ => ⟨_, _, rfl⟩⟩

/-- Two binaries. -/
def listedBinaries : Bytes := [5, 0, 0, 0, 2, 4, 0, 0, 0, 1, 97, 4, 0, 0, 0, 1, 98]

set_option maxRecDepth 4000 in
theorem flow_record_readers_agree_two :
    decodeFlowRecordValueAt listedBinaries 5 (some 2) = .ok (.bytes [97], 11) (some 2) ∧
    decodeValueAt listedBinaries 0 (some 2) =
      .ok (.list [.bytes [97], .bytes [98]], 17) (some 0) :=
  ⟨((flow_record_readers_agree listedBinaries (by decide) 5 (some 2)).1 _ _).mpr rfl,
    (flow_record_readers_agree listedBinaries (by decide) 0 (some 2)).2.2
      [[97], [98]] (some 0) rfl⟩

end FerricStore.FlowRecordReaders
