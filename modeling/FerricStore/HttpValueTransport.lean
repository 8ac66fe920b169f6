import FerricStore.HttpValues

/-!
# HTTP and native transports carry the same values

A value that the native codec accepts and whose floats are finite has valid text and
distinct keys at every level. Such a value is tagged and untagged without a change other
than tuples and bytearrays, because every map of it is tagged and so no map of the user is
taken for a tag. The three conversions then end in the normal form of the native codec.
-/

set_option autoImplicit false

namespace FerricStore.HttpValues

open Text Base64 Stateful ValueCodec ValueCodec.ValueWriter

def carriedKey : Key → Prop
  | .str s => (encode s).isSome
  | .bytes _ => True
  | .other _ => False

mutual
/-- What both transports ask of a value. -/
def carried : Value → Prop
  | .float bits => isFinite bits
  | .str s => (encode s).isSome
  | .list xs => carriedItems xs
  | .tuple xs => carriedItems xs
  | .dict es => carriedEntries es ∧ (es.map fun e => normKey e.1).Nodup
  | .object _ _ => False
  | _ => True
def carriedItems : List Value → Prop
  | [] => True
  | x::xs => carried x ∧ carriedItems xs
def carriedEntries : List (Key × Value) → Prop
  | [] => True
  | (k, v)::es => carriedKey k ∧ carried v ∧ carriedEntries es
end

theorem carriedKey_of_keyBytes {k : Key} {b : Bytes} (h : keyBytes k = .ok b) :
    carriedKey k := by
  cases k with
  | bytes c => trivial
  | other id => cases h
  | str s =>
    cases hs : encode s with
    | none =>
      rw [keyBytes, hs] at h
      cases h
    | some c => simp [carriedKey, hs]

theorem carried_str {s : Str} {sink : ValueWriter} {w : ValueWriter}
    (h : writeStr s sink = .ok () w) : (encode s).isSome := by
  unfold writeStr at h
  obtain ⟨_, t, _, h⟩ := bind_eq_ok h
  cases hs : encode s with
  | none =>
    rw [hs] at h
    cases h
  | some b => rfl

mutual
theorem carried_of_writeValue (v : Value) (levels : ℕ) (sink w : ValueWriter)
    (hfinite : finite v) (h : writeValue v levels sink = .ok () w) : carried v := by
  match v, levels with
  | v, 0 => cases v <;> cases h
  | .none, levels+1 => trivial
  | .bool _, levels+1 => trivial
  | .int _, levels+1 => trivial
  | .float bits, levels+1 => exact hfinite
  | .str s, levels+1 => exact carried_str h
  | .bytes _, levels+1 => trivial
  | .bytearray _, levels+1 => trivial
  | .list xs, levels+1 =>
    obtain ⟨_, t, _, h⟩ := bind_eq_ok h
    exact carried_of_writeItems xs levels t w hfinite h
  | .tuple xs, levels+1 =>
    obtain ⟨_, t, _, h⟩ := bind_eq_ok h
    exact carried_of_writeItems xs levels t w hfinite h
  | .dict es, levels+1 =>
    obtain ⟨_, t, _, h⟩ := bind_eq_ok h
    obtain ⟨hes, hnodup, _⟩ := carried_of_writeEntries es [] levels t w hfinite h
    exact ⟨hes, hnodup⟩
  | .object _ _, levels+1 => cases h
theorem carried_of_writeItems (xs : List Value) (levels : ℕ) (sink w : ValueWriter)
    (hfinite : finiteItems xs) (h : writeItems xs levels sink = .ok () w) :
    carriedItems xs := by
  match xs with
  | [] => trivial
  | x::xs =>
    rw [finiteItems, Bool.and_eq_true] at hfinite
    rw [writeItems] at h
    obtain ⟨_, t, hx, h⟩ := bind_eq_ok h
    exact ⟨carried_of_writeValue x levels sink t hfinite.1 hx,
      carried_of_writeItems xs levels t w hfinite.2 h⟩
theorem carried_of_writeEntries (es : List (Key × Value)) (encodedKeys : List Bytes)
    (levels : ℕ) (sink w : ValueWriter) (hfinite : finiteEntries es)
    (h : writeEntries es encodedKeys levels sink = .ok () w) :
    carriedEntries es ∧ (es.map fun e => normKey e.1).Nodup ∧
      ∀ k ∈ encodedKeys, Key.bytes k ∉ es.map fun e => normKey e.1 := by
  match es with
  | [] => exact ⟨trivial, List.nodup_nil, fun _ _ => List.not_mem_nil⟩
  | (k, x)::es =>
    rw [finiteEntries, Bool.and_eq_true] at hfinite
    rw [writeEntries] at h
    cases hk : keyBytes k with
    | error e =>
      rw [hk] at h
      cases h
    | ok key =>
      rw [hk] at h
      dsimp only at h
      split_ifs at h with hnew
      · cases h
      · obtain ⟨_, t, _, h⟩ := bind_eq_ok h
        obtain ⟨_, t, _, h⟩ := bind_eq_ok h
        obtain ⟨_, u, hx, h⟩ := bind_eq_ok h
        obtain ⟨hes, hnodup, hfresh⟩ :=
          carried_of_writeEntries es (encodedKeys++[key]) levels u w hfinite.2 h
        have hnorm := keyBytes_norm k key hk
        refine ⟨⟨carriedKey_of_keyBytes hk, carried_of_writeValue x levels t u hfinite.1 hx,
          hes⟩, ?_, ?_⟩
        · rw [List.map_cons, List.nodup_cons, hnorm]
          exact ⟨hfresh key (by simp), hnodup⟩
        · intro l hl hmem
          rw [List.map_cons, List.mem_cons, hnorm, Key.bytes.injEq] at hmem
          rcases hmem with rfl | hmem
          · exact hnew hl
          · exact hfresh l (by simp [hl]) hmem
end

theorem carried_of_encodeValue {v : Value} {b : Bytes} (hfinite : finite v)
    (h : encodeValue v none = .ok b) : carried v := by
  unfold encodeValue at h
  cases hw : writeValue v (maxValueNesting+1) ⟨none, []⟩ with
  | error e w =>
    rw [hw] at h
    cases h
  | ok u w => exact carried_of_writeValue v _ _ w hfinite hw

theorem encodeText_ok {s : Str} (h : (encode s).isSome) : encodeText s = .ok (utf8 s) := by
  unfold encode at h
  unfold encodeText encode
  split_ifs at h ⊢
  · rfl
  · cases h

theorem nativeKey_ok {k : Key} (h : carriedKey k) : nativeKey k = .ok (normKey k) := by
  cases k with
  | str s => rw [nativeKey, encodeText_ok h]; rfl
  | bytes b => rfl
  | other id => exact h.elim

/-- Distinct after UTF-8 encoding, so distinct. -/
theorem nodup_of_normKey {es : List (Key × Value)} (h : (es.map fun e => normKey e.1).Nodup) :
    (Dict.keys es).Nodup := by
  have hmap : es.map (fun e => normKey e.1) = (Dict.keys es).map normKey := by
    rw [Dict.keys, List.map_map]
    rfl
  rw [hmap] at h
  exact h.of_map

theorem not_mem_of_nodup {α : Type} {ks ls : List α} {k : α} (h : (ks++k::ls).Nodup) :
    k ∉ ks := by
  intro hk
  exact (List.nodup_append.mp h).2.2 k hk k (by simp) rfl

/-- The marker of bytes is read back as the bytes. -/
theorem decodeBinaryValue_bytesMarker (keys : OtherKeys) (b : Bytes) :
    decodeBinaryValue keys (bytesMarker b) = .ok (.bytes b) := by
  simp [bytesMarker, decodeBinaryValue, decodeBytes, b64decode_b64encode]

theorem mapTag_ne : mapTag ≠ bytesTag := by decide

theorem decodeBinaryValue_mapMarker (keys : OtherKeys) (pairs : List Value) :
    decodeBinaryValue keys (.dict [(mapTag, .list pairs)]) = (do
      let decoded ← decodeBinaryPairs keys pairs []
      pure (.dict decoded)) := by
  simp [decodeBinaryValue, mapTag_ne]

theorem jsonKey_ok (keys : OtherKeys) {k : Key} (h : carriedKey k) :
    ∃ j v, jsonKey keys k = .ok j ∧ decodeBinaryValue keys j = .ok v ∧
      hashable keys v = .ok k := by
  cases k with
  | str s => exact ⟨.str s, .str s, rfl, rfl, rfl⟩
  | bytes b => exact ⟨bytesMarker b, .bytes b, rfl, decodeBinaryValue_bytesMarker keys b, rfl⟩
  | other id => exact h.elim

mutual
theorem decodeBinaryValue_jsonValue (keys : OtherKeys) (v : Value) (h : carried v) :
    ∃ j, jsonValue keys v = .ok j ∧ decodeBinaryValue keys j = .ok (plain v) := by
  match v with
  | .none => exact ⟨_, rfl, rfl⟩
  | .bool _ => exact ⟨_, rfl, rfl⟩
  | .int _ => exact ⟨_, rfl, rfl⟩
  | .float bits => exact ⟨.float bits, if_pos h, rfl⟩
  | .str _ => exact ⟨_, rfl, rfl⟩
  | .bytes b => exact ⟨_, rfl, decodeBinaryValue_bytesMarker keys b⟩
  | .bytearray b => exact ⟨_, rfl, decodeBinaryValue_bytesMarker keys b⟩
  | .list xs =>
    obtain ⟨js, hjs, hd⟩ := decodeBinaryItems_jsonItems keys xs h
    refine ⟨.list js, ?_, ?_⟩
    · rw [jsonValue, hjs]; rfl
    · rw [decodeBinaryValue, hd]; rfl
  | .tuple xs =>
    obtain ⟨js, hjs, hd⟩ := decodeBinaryItems_jsonItems keys xs h
    refine ⟨.list js, ?_, ?_⟩
    · rw [jsonValue, hjs]; rfl
    · rw [decodeBinaryValue, hd]; rfl
  | .dict es =>
    obtain ⟨ps, hps, hd⟩ := decodeBinaryPairs_jsonPairs keys es h.1
    have hnodup : ([]++Dict.keys es).Nodup := nodup_of_normKey h.2
    refine ⟨.dict [(mapTag, .list ps)], ?_, ?_⟩
    · rw [jsonValue, hps]; rfl
    · rw [decodeBinaryValue_mapMarker, hd [] hnodup]; rfl
  | .object _ _ => exact h.elim
theorem decodeBinaryItems_jsonItems (keys : OtherKeys) (xs : List Value)
    (h : carriedItems xs) :
    ∃ js, jsonItems keys xs = .ok js ∧ decodeBinaryItems keys js = .ok (plainItems xs) := by
  match xs with
  | [] => exact ⟨[], rfl, rfl⟩
  | x::xs =>
    obtain ⟨j, hj, hd⟩ := decodeBinaryValue_jsonValue keys x h.1
    obtain ⟨js, hjs, hds⟩ := decodeBinaryItems_jsonItems keys xs h.2
    refine ⟨j::js, ?_, ?_⟩
    · rw [jsonItems, hj, hjs]; rfl
    · rw [decodeBinaryItems, hd, hds]; rfl
theorem decodeBinaryPairs_jsonPairs (keys : OtherKeys) (es : List (Key × Value))
    (h : carriedEntries es) :
    ∃ ps, jsonPairs keys es = .ok ps ∧ ∀ decoded : Dict Key Value,
      (Dict.keys decoded++Dict.keys es).Nodup →
      decodeBinaryPairs keys ps decoded = .ok (decoded++plainEntries es) := by
  match es with
  | [] => exact ⟨[], rfl, fun decoded _ => by rw [plainEntries, List.append_nil]; rfl⟩
  | (k, x)::es =>
    obtain ⟨l, v, hl, hdl, hhash⟩ := jsonKey_ok keys h.1
    obtain ⟨j, hj, hd⟩ := decodeBinaryValue_jsonValue keys x h.2.1
    obtain ⟨ps, hps, hds⟩ := decodeBinaryPairs_jsonPairs keys es h.2.2
    refine ⟨.list [l, j]::ps, ?_, ?_⟩
    · rw [jsonPairs, hl, hj, hps]; rfl
    · intro decoded hnodup
      have hrest : (Dict.keys (decoded++[(k, plain x)])++Dict.keys es).Nodup := by
        simpa [Dict.keys] using hnodup
      rw [decodeBinaryPairs, hdl, hd, except_ok_bind, except_ok_bind, hhash, except_ok_bind,
        Dict.set_of_not_mem _ _ _ (not_mem_of_nodup hnodup), hds _ hrest, plainEntries, List.append_assoc,
        List.singleton_append]
end

theorem compactKey_ok (keys : OtherKeys) {k : Key} (h : carriedKey k) :
    compactKey keys k = .ok k := by
  cases k with
  | str s => rfl
  | bytes b => rfl
  | other id => exact h.elim

mutual
theorem compactValue_ok (keys : OtherKeys) (v : Value) (h : carried v) :
    compactValue keys v = .ok (plain v) := by
  match v with
  | .none => rfl
  | .bool _ => rfl
  | .int _ => rfl
  | .float bits => exact if_pos h
  | .str _ => rfl
  | .bytes _ => rfl
  | .bytearray _ => rfl
  | .list xs => rw [compactValue, compactItems_ok keys xs h]; rfl
  | .tuple xs => rw [compactValue, compactItems_ok keys xs h]; rfl
  | .dict es =>
    have hnodup : ([]++Dict.keys es).Nodup := nodup_of_normKey h.2
    rw [compactValue, compactEntries_ok keys es [] h.1 hnodup]; rfl
  | .object _ _ => exact h.elim
theorem compactItems_ok (keys : OtherKeys) (xs : List Value) (h : carriedItems xs) :
    compactItems keys xs = .ok (plainItems xs) := by
  match xs with
  | [] => rfl
  | x::xs => rw [compactItems, compactValue_ok keys x h.1, compactItems_ok keys xs h.2]; rfl
theorem compactEntries_ok (keys : OtherKeys) (es : List (Key × Value))
    (decoded : Dict Key Value) (h : carriedEntries es)
    (hnodup : (Dict.keys decoded++Dict.keys es).Nodup) :
    compactEntries keys es decoded = .ok (decoded++plainEntries es) := by
  match es with
  | [] => rw [plainEntries, List.append_nil]; rfl
  | (k, x)::es =>
    have hrest : (Dict.keys (decoded++[(k, plain x)])++Dict.keys es).Nodup := by
      simpa [Dict.keys] using hnodup
    rw [compactEntries, compactKey_ok keys h.1, except_ok_bind, compactValue_ok keys x h.2.1,
      except_ok_bind, Dict.set_of_not_mem _ _ _ (not_mem_of_nodup hnodup),
      compactEntries_ok keys es _ h.2.2 hrest, plainEntries, List.append_assoc,
      List.singleton_append]
end

mutual
theorem nativeValue_plain (v : Value) (h : carried v) :
    nativeValue (plain v) = .ok (norm v) := by
  match v with
  | .none => rfl
  | .bool _ => rfl
  | .int _ => rfl
  | .float _ => rfl
  | .str s =>
    have hs : nativeValue (.str s) = .ok (.bytes (utf8 s)) := by
      rw [nativeValue, encodeText_ok h]; rfl
    exact hs
  | .bytes _ => rfl
  | .bytearray _ => rfl
  | .list xs => rw [plain, nativeValue, nativeItems_plain xs h]; rfl
  | .tuple xs => rw [plain, nativeValue, nativeItems_plain xs h]; rfl
  | .dict es =>
    rw [plain, nativeValue, nativeEntries_plain es [] h.1 h.2]; rfl
  | .object _ _ => exact h.elim
theorem nativeItems_plain (xs : List Value) (h : carriedItems xs) :
    nativeItems (plainItems xs) = .ok (normItems xs) := by
  match xs with
  | [] => rfl
  | x::xs =>
    rw [plainItems, nativeItems, nativeValue_plain x h.1, nativeItems_plain xs h.2]; rfl
theorem nativeEntries_plain (es : List (Key × Value)) (acc : Dict Key Value)
    (h : carriedEntries es)
    (hnodup : (Dict.keys acc++es.map fun e => normKey e.1).Nodup) :
    nativeEntries (plainEntries es) acc = .ok (acc++normEntries es) := by
  match es with
  | [] => rw [normEntries, List.append_nil]; rfl
  | (k, x)::es =>
    have hrest : (Dict.keys (acc++[(normKey k, norm x)])++es.map fun e => normKey e.1).Nodup := by
      simpa [Dict.keys] using hnodup
    rw [plainEntries, nativeEntries, nativeKey_ok h.1, except_ok_bind,
      nativeValue_plain x h.2.1, except_ok_bind,
      Dict.set_of_not_mem _ _ _ (not_mem_of_nodup hnodup),
      nativeEntries_plain es _ h.2.2 hrest, normEntries, List.append_assoc,
      List.singleton_append]
end

/-- Both HTTP encodings end in what the native codec reads back, and the tagged one gives
the value itself with its tuples as lists and its bytearrays as bytes. -/
theorem http_transports_agree (keys : OtherKeys) (v : Value) (b : Bytes)
    (hv : encodeValue v none = .ok b) (hfinite : finite v = true) :
    ∃ j w, jsonValue keys v = .ok j ∧
      decodeBinaryValue keys j = .ok (plain v) ∧ nativeValue (plain v) = .ok w ∧
      (∃ c, compactValue keys v = .ok c ∧ nativeValue c = .ok w) ∧
      decodeValue b none = .ok (w, []) := by
  have hc := carried_of_encodeValue hfinite hv
  obtain ⟨j, hj, hd⟩ := decodeBinaryValue_jsonValue keys v hc
  have hn := nativeValue_plain v hc
  have hr := decodeValue_encodeValue v b [] hv
  rw [List.append_nil] at hr
  exact ⟨j, norm v, hj, hd, hn, ⟨plain v, compactValue_ok keys v hc, hn⟩, hr⟩

/-- A map whose keys and nested maps spell both tags, with a tuple and a bytearray in it. -/
def taggedSample : Value :=
  .dict [(mapTag, .dict [(bytesTag, .str (lit "AA=="))]),
    (.bytes [107], .tuple [.bytearray [1, 2], .float 0#64])]

theorem http_transports_agree_taggedSample :
    ∃ j w, jsonValue .rejected taggedSample = .ok j ∧
      decodeBinaryValue .rejected j =
        .ok (.dict [(mapTag, .dict [(bytesTag, .str (lit "AA=="))]),
          (.bytes [107], .list [.bytes [1, 2], .float 0#64])]) ∧
      nativeValue (plain taggedSample) = .ok w ∧
      (∃ c, compactValue .rejected taggedSample = .ok c ∧ nativeValue c = .ok w) ∧
      ∃ b, encodeValue taggedSample none = .ok b ∧ decodeValue b none = .ok (w, []) := by
  obtain ⟨b, hb⟩ : ∃ b, encodeValue taggedSample none = .ok b := ⟨_, rfl⟩
  obtain ⟨j, w, hj, hd, hn, hc, hr⟩ :=
    http_transports_agree .rejected taggedSample b hb (by decide)
  exact ⟨j, w, hj, hd, hn, hc, b, hb, hr⟩

end FerricStore.HttpValues
