import FerricStore.CompactCollections

/-!
# What the compact decoders accept

Every reader of a column, an item or a collection reads the grammar of its format, with its
special cases for empty and single collections.
-/

set_option autoImplicit false

namespace FerricStore.CompactCollections
open Text Cursor Stateful Budgets ValueCodec Grammars ValueGrammar
open FlowCodec (nullU32)
open ClaimRowWidths (optionalValue)

section Columns

theorem nullU32_eq : nullU32+1 = 256^4 := by
  unfold nullU32
  norm_num

theorem binaryOr_reads (short null cut : Halt) : Reads (binaryOr short null cut) compactBinary := by
  refine ((Reads.natural short 4).bind fun n => (Reads.fail null).ite (Reads.field cut n)).congr
    fun b w c => ?_
  have hnull := nullU32_eq
  constructor
  · rintro ⟨n, _, _, _, _, ⟨hn, rfl, rfl⟩, h, rfl, rfl⟩
    split_ifs at h with hsize
    · exact h.elim
    · obtain ⟨rfl, rfl, rfl⟩ := h
      exact ⟨by omega, rfl, rfl⟩
  · rintro ⟨hlength, rfl, rfl⟩
    refine ⟨b.length, _, 0, b, 0, ⟨by omega, rfl, rfl⟩, ?_, rfl, rfl⟩
    beta_reduce
    rw [if_neg (by omega)]
    exact ⟨rfl, rfl, rfl⟩

theorem inlineBinary_reads : Reads inlineBinary compactBinary := binaryOr_reads _ _ _

theorem readCompactBinary_reads : Reads readCompactBinary compactBinary := binaryOr_reads _ _ _

theorem readCompactOptionalBinary_reads : Reads readCompactOptionalBinary optionalBinary := by
  refine ((Reads.natural _ 4).bind fun n => (Reads.pure none).ite
    (Reads.field _ n).map).congr fun o w c => ?_
  have hnull := nullU32_eq
  constructor
  · rintro ⟨n, _, _, _, _, ⟨hn, rfl, rfl⟩, h, rfl, rfl⟩
    split_ifs at h with hsize
    · obtain ⟨rfl, rfl, rfl⟩ := h
      exact ⟨by rw [hsize, List.append_nil], rfl⟩
    · obtain ⟨b, ⟨rfl, rfl, rfl⟩, rfl⟩ := h
      exact ⟨by omega, rfl, rfl⟩
  · intro h
    cases o with
    | none =>
      obtain ⟨rfl, rfl⟩ := h
      refine ⟨nullU32, _, 0, [], 0, ⟨by omega, rfl, rfl⟩, ?_, by simp, rfl⟩
      beta_reduce
      rw [if_pos rfl]
      exact ⟨rfl, rfl, rfl⟩
    | some b =>
      obtain ⟨hlength, rfl, rfl⟩ := h
      refine ⟨b.length, _, 0, b, 0, ⟨by omega, rfl, rfl⟩, ?_, rfl, rfl⟩
      beta_reduce
      rw [if_neg (by omega)]
      exact ⟨b, ⟨rfl, rfl, rfl⟩, rfl⟩

theorem binary_cost {b w : Bytes} {c : ℕ} (h : compactBinary b w c) : c = 0 := h.2.2

theorem optionalBinary_cost {o : Option Bytes} {w : Bytes} {c : ℕ} (h : optionalBinary o w c) :
    c = 0 := by
  cases o with
  | none => exact h.2
  | some b => exact binary_cost h

theorem readCustomClaimJob_reads : Reads readCustomClaimJob claimJob := by
  have hfencing := fun id partition lease =>
    (Reads.integer (Halt.raised truncated) 8).map (g := fun fencing =>
      Value.list [.bytes id, optionalValue partition, .bytes lease, .int fencing])
  have hcolumns := readCompactBinary_reads.bind fun id => readCompactOptionalBinary_reads.bind
    fun partition => readCompactBinary_reads.bind fun lease => hfencing id partition lease
  refine ((Reads.charge limit 4).bind fun _ => hcolumns).congr fun v w c => ?_
  constructor
  · rintro ⟨_, _, _, _, _, ⟨rfl, rfl⟩, ⟨id, w₁, _, _, _, hid, ⟨partition, w₂, _, _, _, hpartition,
      ⟨lease, w₃, _, w₄, _, hlease, ⟨fencing, hfencing, rfl⟩, rfl, rfl⟩, rfl, rfl⟩, rfl, rfl⟩,
      rfl, rfl⟩
    obtain rfl := binary_cost hid
    obtain rfl := optionalBinary_cost hpartition
    obtain rfl := binary_cost hlease
    obtain rfl := hfencing.2.2.2
    exact ⟨id, partition, lease, fencing, w₁, w₂, w₃, w₄, hid, hpartition, hlease, hfencing,
      rfl, rfl, rfl⟩
  · rintro ⟨id, partition, lease, fencing, w₁, w₂, w₃, w₄, hid, hpartition, hlease, hfencing,
      rfl, rfl, rfl⟩
    exact ⟨(), [], 4, _, 0, ⟨rfl, rfl⟩, ⟨id, w₁, 0, _, 0, hid, ⟨partition, w₂, 0, _, 0, hpartition,
      ⟨lease, w₃, 0, w₄, 0, hlease, ⟨fencing, hfencing, rfl⟩, rfl, rfl⟩, rfl, rfl⟩, rfl, rfl⟩,
      rfl, rfl⟩

theorem flowValueRefEntries_length (ref : Bytes) (partitionKey ownerFlowId : Option Bytes) :
    (flowValueRefEntries ref partitionKey ownerFlowId).length =
      1+partitionKey.isSome.toNat+ownerFlowId.isSome.toNat := by
  cases partitionKey <;> cases ownerFlowId <;> rfl

theorem readCustomFlowValueRef_reads : Reads readCustomFlowValueRef flowValueRef := by
  unfold readCustomFlowValueRef
  refine (readCompactBinary_reads.bind fun ref => readCompactOptionalBinary_reads.bind fun key =>
    readCompactOptionalBinary_reads.bind fun owner => (Reads.charge limit
      (1+key.isSome.toNat+owner.isSome.toNat)).map
      (g := fun _ => binaryMap (flowValueRefEntries ref key owner))).congr fun v w c => ?_
  simp only [flowValueRef, flowValueRefEntries_length]
  constructor
  · rintro ⟨ref, w₁, _, _, _, href, ⟨key, w₂, _, _, _, hkey, ⟨owner, w₃, _, _, _, howner,
      ⟨_, ⟨rfl, rfl⟩, rfl⟩, rfl, rfl⟩, rfl, rfl⟩, rfl, rfl⟩
    obtain rfl := binary_cost href
    obtain rfl := optionalBinary_cost hkey
    obtain rfl := optionalBinary_cost howner
    exact ⟨ref, key, owner, w₁, w₂, w₃, href, hkey, howner, by simp, by omega, rfl⟩
  · rintro ⟨ref, key, owner, w₁, w₂, w₃, href, hkey, howner, rfl, rfl, rfl⟩
    exact ⟨ref, w₁, 0, _, _, href, ⟨key, w₂, 0, _, _, hkey, ⟨owner, w₃, 0, [], _, howner,
      ⟨(), ⟨rfl, rfl⟩, rfl⟩, by simp, rfl⟩, rfl, rfl⟩, rfl, by simp⟩

theorem readCustomBinaryList_reads : Reads readCustomBinaryList binaryList :=
  readCompactBinary_reads.listOf.map

theorem readCustomBinaryMap_reads : Reads readCustomBinaryMap binaryEntries :=
  (readCompactBinary_reads.mapOf readCompactBinary_reads).map

end Columns

section Records

variable {data : Bytes} {offset : ℕ} {b b' : Option ℕ} {r : Value × ℕ}

theorem byte_of_getElem {ε : Type} {short : ε} {tag : UInt8} (h : data[offset]? = some tag)
    (b : Option ℕ) : byte short data offset b = .ok (tag, offset+1) b := by
  rw [byte, h]
  rfl

theorem valueParser_byte {n : ℕ} {tag : UInt8} (h : data[offset]? = some tag) (b : Option ℕ) :
    valueParser (n+1) data offset b =
      taggedParser (valueParser n) tag.toNat data (offset+1) b := by
  rw [valueParser_eq, bind_apply, bind_of_ok (byte_of_getElem h b)]

theorem raising_ok {α : Type} {p : Parser Err α} {r : α × ℕ} :
    raising Halt.raised p data offset b = .ok r b' ↔ p data offset b = .ok r b' := by
  unfold raising
  cases p data offset b <;> simp

theorem charge_nothing {ε : Type} (excess : ε) (data : Bytes) (offset : ℕ) (b : Option ℕ) :
    charge excess 0 data offset b = .ok ((), offset) b := by
  cases b <;> rfl

theorem taggedParser_short {tag : ℕ} (htag : tag = 5 ∨ tag = 6) {p : Parser Err Value} {e : Err}
    {s : Option ℕ} (h : natural truncated 4 data offset b = .error e s) :
    ∃ e' s', taggedParser p tag data offset b = .error e' s' := by
  refine ⟨e, s, ?_⟩
  obtain rfl | rfl := htag
  · show (listOf truncated collectionLimit p data offset >>= fun r => _) b = _
    rw [bind_of_error]
    show (natural truncated 4 data offset >>= fun r => _) b = _
    rw [bind_of_error h]
  · show (mapOf truncated collectionLimit duplicateKey binaryParser p data offset >>= fun r => _) b = _
    rw [bind_of_error]
    show (natural truncated 4 data offset >>= fun r => _) b = _
    rw [bind_of_error h]

/-- An empty collection is read without its items. -/
theorem taggedParser_empty {p : Parser Err Value} {final : ℕ}
    (h : natural truncated 4 data offset b = .ok (0, final) b) :
    taggedParser p 5 data offset b = .ok (.list [], final) b ∧
      taggedParser p 6 data offset b = .ok (.dict [], final) b := by
  constructor
  · show (listOf truncated collectionLimit p data offset >>= fun r => _) b = _
    have hlist : listOf truncated collectionLimit p data offset b = .ok ([], final) b := by
      show (natural truncated 4 data offset >>= fun r => _) b = _
      rw [bind_of_ok h]
      show (charge collectionLimit 0 data final >>= fun r => _) b = _
      rw [bind_of_ok (charge_nothing collectionLimit data final b)]
      rfl
    rw [bind_of_ok hlist]
    rfl
  · show (mapOf truncated collectionLimit duplicateKey binaryParser p data offset >>=
      fun r => _) b = _
    have hmap : mapOf truncated collectionLimit duplicateKey binaryParser p data offset b =
        .ok ([], final) b := by
      show (natural truncated 4 data offset >>= fun r => _) b = _
      rw [bind_of_ok h]
      show (charge collectionLimit 0 data final >>= fun r => _) b = _
      rw [bind_of_ok (charge_nothing collectionLimit data final b)]
      rfl
    rw [bind_of_ok hmap]
    rfl

/-- An empty collection is read as the value codec reads it. -/
theorem emptyCollection_ok {message : String} {empty : Value} {tag : UInt8}
    (htag : data[offset]? = some tag)
    (hkind : tag.toNat = 5 ∧ empty = .list [] ∨ tag.toNat = 6 ∧ empty = .dict []) :
    emptyCollection message empty data offset b = .ok r b' ↔
      taggedParser (valueParser maxValueNesting) tag.toNat data (offset+1) b = .ok r b' := by
  have hlt : offset < data.length := (List.getElem?_eq_some_iff.mp htag).1
  unfold emptyCollection
  cases hcount : natural truncated 4 data (offset+1) b with
  | error e s =>
    obtain ⟨e', s', herror⟩ := taggedParser_short (hkind.imp And.left And.left)
      (p := valueParser maxValueNesting) hcount
    rw [herror]
    refine ⟨fun h => ?_, fun h => (nomatch h)⟩
    obtain ⟨x, t, hx, -⟩ := bind_eq_ok h
    have := (Reads.natural (ferric message) 4).agree (Reads.natural truncated 4) hlt hx
    rw [hcount] at this
    cases this
  | ok x s =>
    have hread := (Reads.natural truncated 4).agree (Reads.natural (ferric message) 4) hlt hcount
    obtain ⟨w, rest, c, -, -, ⟨-, -, rfl⟩, -, rfl⟩ :=
      (Reads.natural truncated 4).sound (e := x.2) hlt hcount
    rw [spend_zero] at hread hcount
    rw [bind_of_ok hread]
    dsimp only
    split_ifs with hzero
    · obtain ⟨n, final⟩ := x
      obtain rfl : n = 0 := hzero
      have hempty : taggedParser (valueParser maxValueNesting) tag.toNat data (offset+1) b =
          .ok (empty, final) b := by
        obtain ⟨htag, rfl⟩ | ⟨htag, rfl⟩ := hkind
        · rw [htag, (taggedParser_empty hcount).1]
        · rw [htag, (taggedParser_empty hcount).2]
      rw [hempty]
      rw [bind_of_ok (charge_nothing limit data final b), Stateful.pure_apply]
      simp only [EStateM.Result.ok.injEq]
    · rw [raising_ok, valueParser_byte htag]

/-- Only the tag of binaries announces one. -/
theorem announced_bytes {G : Grammar Value} {tag c : ℕ} {x w : Bytes}
    (h : announced G tag (.bytes x) w c) : tag = 4 := by
  match tag with
  | 0 => exact nomatch h.1
  | 1 => exact nomatch h.1
  | 2 => exact nomatch h.1
  | 3 => exact nomatch h.choose_spec.2
  | 4 => rfl
  | 5 => exact nomatch h.choose_spec.2
  | 6 => exact nomatch h.choose_spec.2
  | 7 => exact nomatch h.choose_spec.2
  | 8 => exact nomatch h.choose_spec.2
  | _+9 => exact h.elim

/-- The values of a record are tagged values, whose binaries are not of the null length. -/
theorem flowRecordValue_iff :
    decodeFlowRecordValueAt data offset b = .ok r b' ↔
      valueParser (maxValueNesting+1) data offset b = .ok r b' ∧
        ∀ x, r.1 = .bytes x → x.length ≠ nullU32 := by
  cases htag : data[offset]? with
  | none =>
    have hbyte : byte truncated data offset b = .error truncated b := by
      rw [byte, htag]
      rfl
    rw [valueParser_eq, bind_apply, bind_of_error hbyte, decodeFlowRecordValueAt, htag]
    exact ⟨fun h => (by cases h), fun h => (by cases h.1)⟩
  | some tag =>
    have hlt : offset+1 ≤ data.length := (List.getElem?_eq_some_iff.mp htag).1
    have hplain : ∀ {p : Reading Value} {q : Parser Err Value} {G : Grammar Value}, Reads p G →
        Reads q G → (∀ v w c, G v w c → ∀ x, v ≠ .bytes x) →
        (p data (offset+1) b = .ok r b' ↔ q data (offset+1) b = .ok r b' ∧
          ∀ x, r.1 = .bytes x → x.length ≠ nullU32) := by
      intro p q G hp hq hG
      refine ⟨fun h => ⟨hp.agree hq hlt h, fun x hx => ?_⟩, fun h => hq.agree hp hlt h.1⟩
      obtain ⟨w, rest, c, -, -, hg, -⟩ := hp.sound (e := r.2) hlt h
      exact absurd hx (hG _ _ _ hg x)
    have hother : ∀ t ≠ 4, taggedParser (valueParser maxValueNesting) t data (offset+1) b = .ok r b' ↔
        taggedParser (valueParser maxValueNesting) t data (offset+1) b = .ok r b' ∧
          ∀ x, r.1 = .bytes x → x.length ≠ nullU32 := by
      refine fun t ht => ⟨fun h => ⟨h, fun x hx => ?_⟩, fun h => h.1⟩
      obtain ⟨w, rest, c, -, -, hg, -⟩ := (taggedParser_reads (valueParser_reads maxValueNesting)
        t).sound (e := r.2) hlt h
      rw [hx] at hg
      exact absurd (announced_bytes hg) ht
    rw [valueParser_byte htag]
    unfold decodeFlowRecordValueAt
    rw [htag]
    simp only
    rcases Nat.lt_or_ge tag.toNat 8 with hsmall | hlarge
    · have hcases : tag.toNat = 0 ∨ tag.toNat = 1 ∨ tag.toNat = 2 ∨ tag.toNat = 3 ∨ tag.toNat = 4 ∨
          tag.toNat = 5 ∨ tag.toNat = 6 ∨ tag.toNat = 7 := by omega
      rcases hcases with ht | ht | ht | ht | ht | ht | ht | ht
      · rw [ht]
        exact hplain (Reads.pure Value.none) (Reads.pure _) (by rintro v w c ⟨rfl, -⟩ x; simp)
      · rw [ht]
        exact hplain (Reads.pure (Value.bool true)) (Reads.pure _)
          (by rintro v w c ⟨rfl, -⟩ x; simp)
      · rw [ht]
        exact hplain (Reads.pure (Value.bool false)) (Reads.pure _)
          (by rintro v w c ⟨rfl, -⟩ x; simp)
      · rw [ht]
        exact hplain (Reads.integer _ 8).map (taggedParser_reads (valueParser_reads _) 3)
          (by rintro v w c ⟨n, -, rfl⟩ x; simp)
      · rw [ht]
        have hnull := nullU32_eq
        have hp := (binaryOr_reads (ferric "protocol binary is truncated")
          (ferric "protocol compact value expected binary")
          (ferric "protocol compact value expected binary")).map (g := Value.bytes)
        have hq := taggedParser_reads (valueParser_reads maxValueNesting) 4
        constructor
        · intro h
          obtain ⟨w, rest, c, hs, hfinal, ⟨x, hx, hv⟩, hb, rfl⟩ := hp.sound (e := r.2) hlt h
          have hq' := hq.complete hs ⟨x, ⟨by have := hx.1; omega, hx.2⟩, hv⟩ hb
          rw [← hfinal] at hq'
          refine ⟨hq', fun y hy => ?_⟩
          rw [hv] at hy
          cases hy
          exact hx.1.ne
        · rintro ⟨h, hcond⟩
          obtain ⟨w, rest, c, hs, hfinal, ⟨x, hx, hv⟩, hb, rfl⟩ := hq.sound (e := r.2) hlt h
          have hp' := hp.complete hs ⟨x, ⟨?_, hx.2⟩, hv⟩ hb
          · rwa [← hfinal] at hp'
          · have := hx.1
            have := hcond x hv
            omega
      · rw [ht]
        refine (emptyCollection_ok htag (.inl ⟨ht, rfl⟩)).trans ?_
        rw [ht]
        exact hother 5 (by decide)
      · rw [ht]
        refine (emptyCollection_ok htag (.inr ⟨ht, rfl⟩)).trans ?_
        rw [ht]
        exact hother 6 (by decide)
      · rw [ht]
        exact hplain (Reads.field _ 8).map (taggedParser_reads (valueParser_reads _) 7)
          (by rintro v w c ⟨n, -, rfl⟩ x; simp)
    · obtain ⟨n, ht⟩ := Nat.exists_eq_add_of_le' hlarge
      rw [ht]
      show raising Halt.raised (valueParser (maxValueNesting+1)) data offset b = _ ↔ _
      rw [raising_ok, valueParser_byte htag, ht]
      exact hother (n+8) (by omega)

theorem decodeFlowRecordValueAt_reads : Reads decodeFlowRecordValueAt recordValue where
  sound hoffset h := by
    obtain ⟨hvalue, hcond⟩ := flowRecordValue_iff.mp h
    obtain ⟨w, rest, c, hs, hfinal, hg, hb⟩ := (valueParser_reads _).sound hoffset hvalue
    exact ⟨w, rest, c, hs, hfinal, ⟨hg, hcond⟩, hb⟩
  complete hs hg hb := flowRecordValue_iff.mpr ⟨(valueParser_reads _).complete hs hg.1 hb, hg.2⟩

theorem readFieldKey_reads : Reads readFieldKey fieldKey := by
  refine ((Reads.byte _).bind fun keyId => (binaryOr_reads _ _ _).map.ite
    (Reads.pure flowRecordFieldKeys[keyId.toNat]?)).congr fun key w c => ?_
  constructor
  · rintro ⟨keyId, _, _, w, c, ⟨rfl, rfl⟩, h, rfl, rfl⟩
    split_ifs at h with hzero
    · obtain ⟨b, hb, rfl⟩ := h
      subst hzero
      exact .inl ⟨b, w, rfl, rfl, by rwa [Nat.zero_add]⟩
    · obtain ⟨rfl, rfl, rfl⟩ := h
      exact .inr ⟨keyId, hzero, rfl, rfl, rfl⟩
  · rintro (⟨b, rest, rfl, rfl, hb⟩ | ⟨keyId, hzero, rfl, rfl, rfl⟩)
    · refine ⟨0, [0], 0, rest, c, ⟨rfl, rfl⟩, ?_, rfl, (Nat.zero_add c).symm⟩
      beta_reduce
      rw [if_pos rfl]
      exact ⟨b, hb, rfl⟩
    · refine ⟨keyId, [keyId], 0, [], 0, ⟨rfl, rfl⟩, ?_, rfl, rfl⟩
      beta_reduce
      rw [if_neg hzero]
      exact ⟨rfl, rfl, rfl⟩

theorem namedFields_cons (key : Option Bytes) (v : Value) (fields : List (Option Bytes × Value)) :
    namedFields ((key, v)::fields) =
      (key.map fun key => (key, v)).toList++namedFields fields := by
  cases key <;> rfl

/-- The loop over the fields keeps the named ones, which are all different. -/
theorem readRecordFields_reads (n : ℕ) (seen : List (Bytes × Value)) :
    Reads (readRecordFields n seen) fun record w c => ∃ fields, record = seen++namedFields fields ∧
      fields.length = n ∧ ((namedFields fields).map Prod.fst).Nodup ∧
      (∀ e ∈ namedFields fields, e.1 ∉ seen.map Prod.fst) ∧
      Sequence (pair fieldKey recordValue) fields w c := by
  induction n generalizing seen with
  | zero =>
    refine (Reads.pure seen).congr fun record w c => ?_
    constructor
    · rintro ⟨rfl, rfl, rfl⟩
      exact ⟨[], by simp [namedFields], rfl, List.nodup_nil, by simp [namedFields], .nil⟩
    · rintro ⟨fields, rfl, hlength, -, -, hs⟩
      obtain rfl := List.length_eq_zero_iff.mp hlength
      cases hs
      exact ⟨by simp [namedFields], rfl, rfl⟩
  | succ n ih =>
    -- What the loop does with a field that it has read.
    have hstep : ∀ (key : Option Bytes) (value : Value), Reads (key.elim (readRecordFields n seen)
        fun key => if key ∈ seen.map Prod.fst then fail duplicate
          else readRecordFields n (seen++[(key, value)])) fun record w c =>
        ∃ fields, record = seen++namedFields ((key, value)::fields) ∧ fields.length = n ∧
          ((namedFields ((key, value)::fields)).map Prod.fst).Nodup ∧
          (∀ e ∈ namedFields ((key, value)::fields), e.1 ∉ seen.map Prod.fst) ∧
          Sequence (pair fieldKey recordValue) fields w c := by
      intro key value
      cases key with
      | none => exact ih seen
      | some k =>
        refine ((Reads.fail duplicate).ite (ih (seen++[(k, value)]))).congr fun record w c => ?_
        simp only [namedFields_cons, Option.map_some, Option.toList_some, List.singleton_append,
          List.map_cons, List.nodup_cons, List.forall_mem_cons]
        constructor
        · intro h
          split_ifs at h with hnew
          · exact h.elim
          · obtain ⟨fields, rfl, hlength, hnodup, hout, hs⟩ := h
            refine ⟨fields, by simp, hlength, ⟨fun hin => ?_, hnodup⟩, ⟨hnew, fun e he hin => ?_⟩,
              hs⟩
            · obtain ⟨e, he, rfl⟩ := List.mem_map.mp hin
              exact hout e he (by simp)
            · exact hout e he (by simp [List.mem_map.mp hin])
        · rintro ⟨fields, rfl, hlength, ⟨hk, hnodup⟩, ⟨hnew, hout⟩, hs⟩
          rw [if_neg hnew]
          refine ⟨fields, by simp, hlength, hnodup, fun e he hin => ?_, hs⟩
          rw [List.map_append, List.mem_append] at hin
          rcases hin with hin | hin
          · exact hout e he hin
          · rw [List.map_singleton, List.mem_singleton] at hin
            have hkey : e.1 = k := hin
            exact hk (hkey ▸ List.mem_map_of_mem he)
    have hfield : readRecordFields (n+1) seen = readFieldKey >>= fun key =>
        decodeFlowRecordValueAt >>= fun value => key.elim (readRecordFields n seen) fun key =>
          if key ∈ seen.map Prod.fst then fail duplicate
          else readRecordFields n (seen++[(key, value)]) := by
      rw [readRecordFields]
      refine bind_congr fun key => bind_congr fun value => ?_
      cases key <;> rfl
    rw [hfield]
    refine (readFieldKey_reads.bind fun key => decodeFlowRecordValueAt_reads.bind fun value =>
      hstep key value).congr fun record w c => ?_
    constructor
    · rintro ⟨key, w₁, c₁, _, _, hkey, ⟨value, w₂, c₂, ws, cs, hvalue,
        ⟨fields, rfl, rfl, hnodup, hout, hs⟩, rfl, rfl⟩, rfl, rfl⟩
      refine ⟨(key, value)::fields, rfl, rfl, hnodup, hout, ?_⟩
      rw [← List.append_assoc, ← Nat.add_assoc]
      exact .cons ⟨w₁, c₁, w₂, c₂, hkey, hvalue, rfl, rfl⟩ hs
    · rintro ⟨fields, rfl, hlength, hnodup, hout, hs⟩
      cases hs with
      | nil => cases hlength
      | @cons field fields _ ws _ cs hfield hs =>
        obtain ⟨w₁, c₁, w₂, c₂, hkey, hvalue, rfl, rfl⟩ := hfield
        exact ⟨field.1, w₁, c₁, w₂++ws, c₂+cs, hkey, ⟨field.2, w₂, c₂, ws, cs, hvalue,
          ⟨fields, rfl, Nat.succ.inj hlength, hnodup, hout, hs⟩, rfl, rfl⟩, by simp, by omega⟩

theorem readCustomFlowRecord_reads : Reads readCustomFlowRecord flowRecord := by
  have hbody := (Reads.natural (ferric "protocol compact Flow record is truncated") 4).bind
    fun count => (Reads.charge limit count).bind fun _ => readRecordFields_reads count []
  refine (hbody.marked compactFlowRecord).congr fun record w c => ?_
  constructor
  · rintro ⟨_, rfl, n, _, _, _, _, ⟨hn, rfl, rfl⟩, ⟨_, _, _, ws, cs, ⟨rfl, rfl⟩,
      ⟨fields, rfl, rfl, hnodup, -, hs⟩, rfl, rfl⟩, rfl, rfl⟩
    exact ⟨fields, _, rfl, ⟨_, cs, hn, hs, by simp, by omega⟩, rfl, hnodup⟩
  · rintro ⟨fields, _, rfl, ⟨ws, cs, hn, hs, rfl, rfl⟩, rfl, hnodup⟩
    exact ⟨_, rfl, fields.length, _, 0, ws, _, ⟨hn, rfl, rfl⟩, ⟨(), [], _, ws, cs, ⟨rfl, rfl⟩,
      ⟨fields, rfl, rfl, hnodup, by simp, hs⟩, rfl, rfl⟩, rfl, (Nat.zero_add _).symm⟩

theorem readCustomFlowRecordList_reads : Reads readCustomFlowRecordList flowRecordList := by
  have hrecords : Reads (do
      let records ← listOf (ferric "protocol compact Flow record list is truncated") limit
        readCustomFlowRecord
      pure (Value.list (records.map binaryMap))) _ := readCustomFlowRecord_reads.listOf.map
  refine (hrecords.marked compactFlowRecordList).congr fun v w c => ?_
  constructor
  · rintro ⟨body, rfl, records, hrecords, rfl⟩
    exact ⟨records, body, rfl, hrecords, rfl⟩
  · rintro ⟨records, body, rfl, hrecords, rfl⟩
    exact ⟨body, rfl, records, hrecords, rfl⟩

end Records

section Items

theorem kvMgetItem_reads : Reads kvMgetItem presentBinary := by
  refine ((Reads.byte .declined).bind fun present => Reads.ite (c := present = 1)
    inlineBinary_reads.map (Reads.ite (c := present = 0) (Reads.pure none)
      (Reads.fail .declined))).congr fun o w c => ?_
  constructor
  · rintro ⟨present, _, _, rest, c, ⟨rfl, rfl⟩, h, rfl, rfl⟩
    split_ifs at h with hone hzero
    · obtain ⟨b, hb, rfl⟩ := h
      exact ⟨rest, by rw [hone]; rfl, by rwa [Nat.zero_add]⟩
    · obtain ⟨rfl, rfl, rfl⟩ := h
      exact ⟨by rw [hzero]; rfl, rfl⟩
    · exact h.elim
  · intro h
    cases o with
    | none =>
      obtain ⟨rfl, rfl⟩ := h
      exact ⟨0, [0], 0, [], 0, ⟨rfl, rfl⟩, ⟨rfl, rfl, rfl⟩, rfl, rfl⟩
    | some b =>
      obtain ⟨rest, rfl, hb⟩ := h
      exact ⟨1, [1], 0, rest, c, ⟨rfl, rfl⟩, ⟨b, hb, rfl⟩, rfl, (Nat.zero_add c).symm⟩

theorem compactBinary_length {b w : Bytes} {c : ℕ} (h : compactBinary b w c) : 4 ≤ w.length := by
  obtain ⟨-, rfl, -⟩ := h
  simp

/-- Empty and single lists are read as the loop would read them. -/
theorem binaryListItem_reads : Reads binaryListItem (counted compactBinary) := by
  have hloop : ∀ n, Reads (if n = 0 then pure []
      else if n = 1 then do
        let value ← inlineBinary
        pure [value]
      else room .declined n 4 (times inlineBinary n) : Reading (List Bytes))
      fun bs w c => bs.length = n ∧ True ∧ Sequence compactBinary bs w c := by
    intro n
    simp only [true_and]
    split_ifs with hzero hone
    · subst hzero
      exact inlineBinary_reads.times 0
    · subst hone
      exact inlineBinary_reads.times 1
    · refine (inlineBinary_reads.times n).room (by decide) ?_
      rintro bs w c ⟨rfl, hs⟩
      exact hs.length_le fun b w c => compactBinary_length
  exact (Reads.charged hloop).congr fun bs w c => by rw [true_and]

theorem binaryMapItem_reads :
    Reads binaryMapItem (countedMap (pair compactBinary compactBinary)) := by
  refine Reads.charged fun n => ?_
  split_ifs with hzero
  · subst hzero
    exact (inlineBinary_reads.entries inlineBinary_reads 0 :
      Reads (distinct duplicate inlineBinary inlineBinary 0 []) _)
  · exact inlineBinary_reads.entries inlineBinary_reads n

theorem readPresence_reads (presence : Presence) :
    Reads (readPresent presence.code) presence.grammar := by
  cases presence with
  | nil => exact Reads.pure Value.none
  | binary => exact readCompactBinary_reads.map
  | record => exact readCustomFlowRecord_reads.map
  | recordList => exact readCustomFlowRecordList_reads
  | claimJob => exact readCustomClaimJob_reads
  | valueRef => exact readCustomFlowValueRef_reads
  | binaryList => exact readCustomBinaryList_reads
  | binaryMap => exact readCustomBinaryMap_reads

theorem presence_cases (present : UInt8) :
    (∃ presence : Presence, presence.code = present) ∨
      readPresent present = fail .declined ∧ ∀ presence : Presence, presence.code ≠ present := by
  have hcode : ∀ {code : UInt8}, present.toNat = code.toNat → code = present :=
    fun h => (UInt8.toNat_inj.mp h).symm
  match h : present.toNat with
  | 0 => exact .inl ⟨.nil, hcode h⟩
  | 1 => exact .inl ⟨.binary, hcode h⟩
  | 2 => exact .inl ⟨.record, hcode h⟩
  | 3 => exact .inl ⟨.recordList, hcode h⟩
  | 4 => exact .inl ⟨.claimJob, hcode h⟩
  | 5 => exact .inl ⟨.valueRef, hcode h⟩
  | 6 => exact .inl ⟨.binaryList, hcode h⟩
  | 7 => exact .inl ⟨.binaryMap, hcode h⟩
  | n+8 =>
    refine .inr ⟨?_, fun presence heq => ?_⟩
    · unfold readPresent
      rw [h]
      rfl
    · have hle : presence.code.toNat ≤ 7 := by
        cases presence <;> decide
      rw [heq, h] at hle
      omega

theorem Presence.code_inj {p q : Presence} (h : p.code = q.code) : p = q := by
  cases p <;> cases q <;> first | rfl | exact absurd h (by decide)

theorem readPresent_reads (present : UInt8) : Reads (readPresent present) fun v w c =>
    ∃ presence : Presence, presence.code = present ∧ presence.grammar v w c := by
  rcases presence_cases present with ⟨presence, rfl⟩ | ⟨hfail, hnone⟩
  · refine (readPresence_reads presence).congr fun v w c => ?_
    constructor
    · exact fun h => ⟨presence, rfl, h⟩
    · rintro ⟨p, hp, h⟩
      rwa [← Presence.code_inj hp]
  · rw [hfail]
    refine (Reads.fail _).congr fun v w c => ⟨False.elim, ?_⟩
    rintro ⟨p, hp, -⟩
    exact hnone p hp

theorem readPipelineItem_reads : Reads readPipelineItem PipelineItem := by
  have hok : Reads (do
      let present ← byte (.raised .indexError)
      let value ← readPresent present
      pure (Value.list [.str (lit "ok"), value])) _ :=
    (Reads.byte (.raised .indexError)).bind fun present => (readPresent_reads present).map
  have hreason : ∀ status : UInt8, Reads (do
      let reason ← readCompactBinary
      pure (Value.list [.str (lit (if status = 1 then "busy" else "error")), .bytes reason])) _ :=
    fun status => readCompactBinary_reads.map
  refine ((Reads.charge limit 2).bind fun _ => (Reads.byte (.raised .indexError)).bind
    fun status => Reads.ite (c := status = 0) hok (Reads.ite (c := status = 1 ∨ status = 2)
      (hreason status) (Reads.fail .declined))).congr fun v w c => ?_
  constructor
  · rintro ⟨_, _, _, _, _, ⟨rfl, rfl⟩, ⟨status, _, _, rest, c, ⟨rfl, rfl⟩, h, rfl, rfl⟩, rfl, rfl⟩
    by_cases hzero : status = 0
    · rw [if_pos hzero] at h
      obtain ⟨present, _, _, w, c, ⟨rfl, rfl⟩, ⟨v, ⟨presence, rfl, hv⟩, rfl⟩, rfl, rfl⟩ := h
      subst hzero
      simpa using PipelineItem.ok hv
    · rw [if_neg hzero] at h
      by_cases hone : status = 1
      · rw [if_pos (.inl hone)] at h
        obtain ⟨reason, hb, rfl⟩ := h
        subst hone
        simpa using PipelineItem.busy hb
      · by_cases htwo : status = 2
        · rw [if_pos (.inr htwo)] at h
          obtain ⟨reason, hb, rfl⟩ := h
          subst htwo
          simpa using PipelineItem.error hb
        · rw [if_neg (not_or.mpr ⟨hone, htwo⟩)] at h
          exact h.elim
  · intro h
    cases h with
    | @ok presence v w c hv =>
      exact ⟨(), [], 2, _, c, ⟨rfl, rfl⟩, ⟨0, [0], 0, presence.code::w, c, ⟨rfl, rfl⟩,
        ⟨presence.code, [presence.code], 0, w, c, ⟨rfl, rfl⟩, ⟨v, ⟨presence, rfl, hv⟩, rfl⟩, rfl,
          (Nat.zero_add c).symm⟩, rfl, (Nat.zero_add c).symm⟩, rfl, rfl⟩
    | @busy b w c hb =>
      exact ⟨(), [], 2, _, c, ⟨rfl, rfl⟩, ⟨1, [1], 0, w, c, ⟨rfl, rfl⟩, ⟨b, hb, rfl⟩, rfl,
        (Nat.zero_add c).symm⟩, rfl, rfl⟩
    | @error b w c hb =>
      exact ⟨(), [], 2, _, c, ⟨rfl, rfl⟩, ⟨2, [2], 0, w, c, ⟨rfl, rfl⟩, ⟨b, hb, rfl⟩, rfl,
        (Nat.zero_add c).symm⟩, rfl, rfl⟩

end Items

end FerricStore.CompactCollections
