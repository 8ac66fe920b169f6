import FerricStore.KeyRouting

/-!
# A key routes the same in both spellings

The delimiters of a key are ASCII, and no byte of another code point spells one of
them, so a scan over the text and a scan over its bytes cut at the same places. A
text hashed in chunks is hashed as a whole.
-/

set_option autoImplicit false

namespace FerricStore.KeyRouting
open Text FlowRouting Crc32 MemoCaches

section Cut

variable {α : Type} [DecidableEq α]

/-- What stands before and after the first occurrence. -/
def cut (c : α) : List α → Option (List α × List α)
  | [] => none
  | x::xs => if x = c then some ([], xs) else (cut c xs).map fun p => (x::p.1, p.2)

theorem find_eq_cut (c : α) (xs : List α) : find c xs = (cut c xs).map fun p => p.1.length := by
  induction xs with
  | nil => rfl
  | cons x xs ih =>
    by_cases hx : x = c
    · simp [find, cut, hx]
    · rw [find, if_neg hx, cut, if_neg hx, ih, Option.map_map, Option.map_map]
      rfl

theorem cut_some {c : α} {xs before after : List α} (h : cut c xs = some (before, after)) :
    xs = before++c::after := by
  induction xs generalizing before with
  | nil => cases h
  | cons x xs ih =>
    by_cases hx : x = c
    · rw [cut, if_pos hx] at h
      cases h
      rw [hx]
      rfl
    · rw [cut, if_neg hx, Option.map_eq_some_iff] at h
      obtain ⟨⟨b, a⟩, hp, he⟩ := h
      cases he
      rw [ih hp]
      rfl

theorem cut_append {c : α} {xs : List α} (h : c ∉ xs) (ys : List α) :
    cut c (xs++ys) = (cut c ys).map fun p => (xs++p.1, p.2) := by
  induction xs with
  | nil => cases hc : cut c ys <;> simp [hc]
  | cons x xs ih =>
    rw [List.mem_cons, not_or] at h
    rw [List.cons_append, cut, if_neg (Ne.symm h.1), ih h.2, Option.map_map]
    rfl

theorem hashTagOrKey_eq (opening closing : α) (key : List α) :
    hashTagOrKey opening closing key =
      match cut opening key with
      | none => key
      | some (_, rest) => match cut closing rest with
        | some (tag, _) => if tag = [] then key else tag
        | none => key := by
  unfold hashTagOrKey
  rw [find_eq_cut]
  cases hc : cut opening key with
  | none => rfl
  | some p =>
    obtain ⟨before, rest⟩ := p
    have hkey := cut_some hc
    have hdrop : key.drop (before.length+1) = rest := by
      rw [hkey, ← List.drop_drop, List.drop_left]
      rfl
    simp only [Option.map_some, hdrop, find_eq_cut]
    cases ht : cut closing rest with
    | none => rfl
    | some q =>
      obtain ⟨tag, tail⟩ := q
      have htake : rest.take tag.length = tag := by
        rw [cut_some ht, List.take_left]
      simp only [Option.map_some, htake, List.length_pos_iff]
      by_cases h : tag = [] <;> simp [h]

theorem flowHashTag_eq (opening closing : α) (rest key : List α) :
    flowHashTag opening closing rest key =
      match cut closing rest with
      | some (tag, _) => if tag = [] then hashTagOrKey opening closing key else tag
      | none => hashTagOrKey opening closing key := by
  unfold flowHashTag
  rw [find_eq_cut]
  cases ht : cut closing rest with
  | none => rfl
  | some q =>
    obtain ⟨tag, tail⟩ := q
    have htake : rest.take tag.length = tag := by
      rw [cut_some ht, List.take_left]
    simp only [Option.map_some, htake, List.length_pos_iff]
    by_cases h : tag = [] <;> simp [h]

end Cut

section Utf8

theorem utf8_append (a b : Str) : utf8 (a++b) = utf8 a++utf8 b := List.flatMap_append

theorem utf8_cons (c : CodePoint) (s : Str) : utf8 (c::s) = utf8Point c++utf8 s := rfl

theorem utf8Point_ascii {c : CodePoint} (h : c.val < 0x80) :
    utf8Point c = [UInt8.ofNat c.val] := by
  rw [utf8Point, if_pos (by omega)]

/-- The bytes of a code point outside ASCII are outside ASCII. -/
theorem utf8Point_high {c : CodePoint} (h : 0x80 ≤ c.val) {b : UInt8} (hb : b ∈ utf8Point c) :
    0x80 ≤ b.toNat := by
  have hc := c.isLt
  unfold utf8Point at hb
  rw [if_neg (by omega)] at hb
  split at hb
  · simp only [List.mem_cons, List.not_mem_nil, or_false] at hb
    rcases hb with rfl | rfl <;> rw [UInt8.toNat_ofNat'] <;> omega
  · split at hb
    · simp only [List.mem_cons, List.not_mem_nil, or_false] at hb
      rcases hb with rfl | rfl | rfl <;> rw [UInt8.toNat_ofNat'] <;> omega
    · simp only [List.mem_cons, List.not_mem_nil, or_false] at hb
      rcases hb with rfl | rfl | rfl | rfl <;> rw [UInt8.toNat_ofNat'] <;> omega

theorem toNat_ofNat_ascii {c : CodePoint} (h : c.val < 0x80) :
    (UInt8.ofNat c.val).toNat = c.val := by
  rw [UInt8.toNat_ofNat']
  exact Nat.mod_eq_of_lt (by omega)

theorem ofNat_inj_ascii {c d : CodePoint} (hc : c.val < 0x80) (hd : d.val < 0x80)
    (h : UInt8.ofNat c.val = UInt8.ofNat d.val) : c = d := by
  have he := congrArg UInt8.toNat h
  rw [toNat_ofNat_ascii hc, toNat_ofNat_ascii hd] at he
  exact Fin.ext he

theorem not_mem_utf8Point {c d : CodePoint} (hc : c.val < 0x80) (hne : d ≠ c) :
    UInt8.ofNat c.val ∉ utf8Point d := by
  intro hm
  by_cases hd : d.val < 0x80
  · rw [utf8Point_ascii hd, List.mem_singleton] at hm
    exact hne (ofNat_inj_ascii hc hd hm).symm
  · have hb := utf8Point_high (by omega) hm
    rw [toNat_ofNat_ascii hc] at hb
    omega

/-- A cut at an ASCII symbol is a cut of the bytes. -/
theorem cut_utf8 {c : CodePoint} (hc : c.val < 0x80) (s : Str) :
    cut (UInt8.ofNat c.val) (utf8 s) = (cut c s).map fun p => (utf8 p.1, utf8 p.2) := by
  induction s with
  | nil => rfl
  | cons d s ih =>
    rw [utf8_cons]
    by_cases hd : d = c
    · rw [hd, utf8Point_ascii hc, List.singleton_append, cut, if_pos rfl, cut, if_pos rfl]
      rfl
    · rw [cut_append (not_mem_utf8Point hc hd), ih, cut, if_neg hd, Option.map_map,
        Option.map_map]
      rfl

theorem utf8_eq_nil {s : Str} : utf8 s = [] ↔ s = [] := by
  constructor
  · intro h
    have hl := length_le_utf8_length s
    rw [h, List.length_nil] at hl
    exact List.length_eq_zero_iff.mp (by omega)
  · rintro rfl
    rfl

/-- An ASCII start of the bytes is a start of the text. -/
theorem utf8_start {p : Str} (hp : isAscii p = true) (s : Str) :
    (utf8 p).isPrefixOf (utf8 s) = p.isPrefixOf s := by
  induction p generalizing s with
  | nil => cases s <;> rfl
  | cons c p ih =>
    simp only [isAscii, List.all_cons, Bool.and_eq_true, decide_eq_true_eq] at hp
    have hc := hp.1
    rw [utf8_cons, utf8Point_ascii hc, List.singleton_append]
    cases s with
    | nil => rfl
    | cons d s =>
      by_cases hd : d = c
      · have hs := ih (by simpa [isAscii] using hp.2) s
        rw [hd, utf8_cons, utf8Point_ascii hc, List.singleton_append, List.isPrefixOf_cons_cons,
          List.isPrefixOf_cons_cons, hs]
        simp
      · have hfalse : (c::p).isPrefixOf (d::s) = false := by
          rw [List.isPrefixOf_cons_cons]
          simp [Ne.symm hd]
        rw [hfalse, Bool.eq_false_iff]
        intro ht
        rw [List.isPrefixOf_iff_prefix] at ht
        obtain ⟨t, ht⟩ := ht
        have hne : utf8Point d ≠ [] := fun h0 => by
          have hlen := (utf8Size_bounds d).1
          rw [← utf8Point_length, h0] at hlen
          cases hlen
        obtain ⟨b, bs, hb⟩ := List.exists_cons_of_ne_nil hne
        rw [utf8_cons, hb, List.cons_append, List.cons_append, List.cons.injEq] at ht
        exact not_mem_utf8Point hc hd (by rw [hb, ht.1]; exact List.mem_cons_self)

theorem utf8_drop_start {p s : Str} (h : p.isPrefixOf s = true) :
    (utf8 s).drop (utf8 p).length = utf8 (s.drop p.length) := by
  obtain ⟨t, rfl⟩ := List.isPrefixOf_iff_prefix.mp h
  rw [utf8_append, List.drop_left, List.drop_left]

end Utf8

theorem utf8_hashTagOrKey {o c : CodePoint} (ho : o.val < 0x80) (hc : c.val < 0x80) (s : Str) :
    hashTagOrKey (UInt8.ofNat o.val) (UInt8.ofNat c.val) (utf8 s) =
      utf8 (hashTagOrKey o c s) := by
  rw [hashTagOrKey_eq, hashTagOrKey_eq, cut_utf8 ho]
  cases cut o s with
  | none => rfl
  | some p =>
    simp only [Option.map_some, cut_utf8 hc]
    cases cut c p.2 with
    | none => rfl
    | some q =>
      simp only [Option.map_some, utf8_eq_nil]
      by_cases h : q.1 = [] <;> simp [h]

theorem utf8_flowHashTag {o c : CodePoint} (ho : o.val < 0x80) (hc : c.val < 0x80)
    (rest s : Str) :
    flowHashTag (UInt8.ofNat o.val) (UInt8.ofNat c.val) (utf8 rest) (utf8 s) =
      utf8 (flowHashTag o c rest s) := by
  rw [flowHashTag_eq, flowHashTag_eq, cut_utf8 hc, utf8_hashTagOrKey ho hc]
  cases cut c rest with
  | none => rfl
  | some q =>
    simp only [Option.map_some, utf8_eq_nil]
    by_cases h : q.1 = [] <;> simp [h]

theorem utf8_hashInput (s : Str) : bytesHashInput (utf8 s) = utf8 (textHashInput s) := by
  have ho : brace.val < 0x80 := by decide
  have hc : unbrace.val < 0x80 := by decide
  have hflow : isAscii flowPrefix = true := by decide
  have hshared : isAscii sharedPrefix = true := by decide
  have hbrace : (0x7B : UInt8) = UInt8.ofNat brace.val := rfl
  have hunbrace : (0x7D : UInt8) = UInt8.ofNat unbrace.val := rfl
  unfold bytesHashInput textHashInput hashInput
  rw [utf8_start hflow, utf8_start hshared, hbrace, hunbrace]
  split
  · next h => rw [utf8_drop_start h, utf8_flowHashTag ho hc]
  · split
    · next h => rw [utf8_drop_start h, utf8_flowHashTag ho hc]
    · exact utf8_hashTagOrKey ho hc s

section Encodable

theorem encodable_of_subset {s t : Str} (h : encodable s = true) (ht : ∀ c ∈ t, c ∈ s) :
    encodable t = true := by
  simp only [encodable, List.all_eq_true] at *
  exact fun c hc => h c (ht c hc)

theorem mem_hashTagOrKey {α : Type} [DecidableEq α] (o c : α) (s : List α) :
    ∀ x ∈ hashTagOrKey o c s, x ∈ s := by
  intro x hx
  unfold hashTagOrKey at hx
  split at hx
  · exact hx
  · split at hx
    · split at hx
      · exact List.mem_of_mem_drop (List.mem_of_mem_take hx)
      · exact hx
    · exact hx

theorem mem_flowHashTag {α : Type} [DecidableEq α] (o c : α) (n : ℕ) (s : List α) :
    ∀ x ∈ flowHashTag o c (s.drop n) s, x ∈ s := by
  intro x hx
  unfold flowHashTag at hx
  split at hx
  · split at hx
    · exact List.mem_of_mem_drop (List.mem_of_mem_take hx)
    · exact mem_hashTagOrKey o c s x hx
  · exact mem_hashTagOrKey o c s x hx

theorem mem_textHashInput (s : Str) : ∀ x ∈ textHashInput s, x ∈ s := by
  intro x hx
  unfold textHashInput hashInput at hx
  split at hx
  · exact mem_flowHashTag _ _ _ s x hx
  · split at hx
    · exact mem_flowHashTag _ _ _ s x hx
    · exact mem_hashTagOrKey _ _ s x hx

theorem encodeText_ok {s : Str} (h : encodable s = true) : encodeText s = .ok (utf8 s) := by
  simp [encodeText, encode, h]

end Encodable

theorem slotForKey_spelling (rt : Runtime) {s : Str} (h : encodable s = true) :
    slotForKey rt (.str s) = slotForKey rt (.bytes (utf8 s)) := by
  have he : encodable (textHashInput s) = true := encodable_of_subset h (mem_textHashInput s)
  have ht : slotForKey rt (.str s) = (encodeText (textHashInput s)).map slotOf := rfl
  rw [ht, encodeText_ok he, slotForKey, utf8_hashInput]
  rfl

section Chunks

theorem flatten_toChunks_go {α : Type} (n : ℕ) (xs : List α) (acc : Array α)
    (done : Array (List α)) :
    (List.toChunks.go n xs acc done).flatten = done.toList.flatten++acc.toList++xs := by
  induction xs generalizing acc done with
  | nil => simp [List.toChunks.go]
  | cons x xs ih =>
    unfold List.toChunks.go
    split
    · rw [ih]
      simp
    · rw [ih]
      simp

theorem flatten_toChunks {α : Type} (n : ℕ) (xs : List α) : (xs.toChunks n).flatten = xs := by
  unfold List.toChunks
  split
  · rfl
  · simp
  · rw [flatten_toChunks_go]
    simp

theorem mapM_encodeText (chunks : List Str) (h : encodable chunks.flatten = true) :
    ∃ parts, chunks.mapM encodeText = .ok parts ∧ parts.flatten = utf8 chunks.flatten := by
  induction chunks with
  | nil => exact ⟨[], rfl, rfl⟩
  | cons c chunks ih =>
    rw [List.flatten_cons] at h
    have hc : encodable c = true := encodable_of_subset h fun x hx => List.mem_append_left _ hx
    obtain ⟨parts, hparts, hflat⟩ :=
      ih (encodable_of_subset h fun x hx => List.mem_append_right _ hx)
    refine ⟨utf8 c::parts, ?_, ?_⟩
    · rw [List.mapM_cons, encodeText_ok hc, hparts]
      rfl
    · rw [List.flatten_cons, List.flatten_cons, utf8_append, hflat]

end Chunks

theorem routingCrc32_spelling {s : Str} (h : encodable s = true) :
    routingCrc32 (.str s) = routingCrc32 (.bytes (utf8 s)) := by
  have hchunks := flatten_toChunks flowRoutingTextChunkChars s
  obtain ⟨parts, hparts, hflat⟩ :=
    mapM_encodeText (s.toChunks flowRoutingTextChunkChars) (hchunks.symm ▸ h)
  rw [hchunks] at hflat
  simp only [routingCrc32, hparts, foldl_crc32]
  change Except.ok (some (crc32 0 parts.flatten)) = _
  rw [hflat]

theorem flowAutoIdRoutingKey_spelling {s : Str} (h : encodable s = true) :
    flowAutoIdRoutingKey (.str s) = flowAutoIdRoutingKey (.bytes (utf8 s)) := by
  rw [flowAutoIdRoutingKey, flowAutoIdRoutingKey, routingCrc32_spelling h]

/-- A key too long to name an automatic partition. -/
theorem autoBucket_long {encoded : Bytes} (h : 17 < encoded.length) :
    autoBucket encoded = none := by
  have hlen : flowAutoPartitionPrefix.length = 14 := by decide
  unfold autoBucket
  split
  · have hb : bucketOf (encoded.drop flowAutoPartitionPrefix.length) = none := by
      unfold bucketOf
      rw [if_neg]
      rintro ⟨-, hd, -⟩
      rw [List.length_drop, hlen] at hd
      omega
    rw [hb]
    rfl
  · rfl

theorem partitionRoutingKey_spelling (digest : Bytes → Str) {s : Str}
    (h : encodable s = true) :
    flowLogicalPartitionRoutingKey digest (.str s) =
      flowLogicalPartitionRoutingKey digest (.bytes (utf8 s)) := by
  unfold flowLogicalPartitionRoutingKey
  dsimp only
  split
  · next hlong =>
    have hchunks := flatten_toChunks flowRoutingTextChunkChars s
    obtain ⟨parts, hparts, hflat⟩ :=
      mapM_encodeText (s.toChunks flowRoutingTextChunkChars) (hchunks.symm ▸ h)
    rw [hchunks] at hflat
    have hauto : autoBucket (utf8 s) = none := by
      refine autoBucket_long ?_
      have hl := length_le_utf8_length s
      rw [flowPartitionRouteCacheMaxKeyBytes] at hlong
      omega
    rw [logicalPartitionTextRoutingKey, hparts, logicalPartitionKey, hauto]
    change Except.ok (some (digestRouteKey digest parts.flatten)) = _
    rw [hflat]
  · rw [encodeText_ok h]
    rfl

/-- A call through a cache that holds values of the function. -/
theorem encodedRoutingKey_spec {digest : Bytes → Str} {cache : Dict Bytes Str}
    (h : Holds (logicalPartitionKey digest) cache) (encoded : Bytes) :
    (encodedRoutingKey digest cache encoded).1 =
        .ok (some (logicalPartitionKey digest encoded)) ∧
      Holds (logicalPartitionKey digest) (encodedRoutingKey digest cache encoded).2 := by
  unfold encodedRoutingKey
  split
  · exact ⟨rfl, h⟩
  · dsimp only
    exact ⟨by rw [call_value h], call_holds h _ _⟩

theorem cachedRoutingKey_spec {digest : Bytes → Str} {cache : Dict Bytes Str}
    (h : Holds (logicalPartitionKey digest) cache) (v : Value) :
    (cachedRoutingKey digest cache v).1 = flowLogicalPartitionRoutingKey digest v ∧
      Holds (logicalPartitionKey digest) (cachedRoutingKey digest cache v).2 := by
  cases v with
  | str s =>
    simp only [cachedRoutingKey, flowLogicalPartitionRoutingKey]
    by_cases hs : s.length > flowPartitionRouteCacheMaxKeyBytes
    · rw [if_pos hs, if_pos hs]
      exact ⟨rfl, h⟩
    · rw [if_neg hs, if_neg hs]
      cases he : encodeText s with
      | error e => exact ⟨rfl, h⟩
      | ok encoded => exact encodedRoutingKey_spec h encoded
  | bytes b => exact encodedRoutingKey_spec h b
  | _ => exact ⟨rfl, h⟩

theorem cacheAfter_holds (digest : Bytes → Str) (calls : List Value) :
    Holds (logicalPartitionKey digest) (cacheAfter digest calls) := by
  have hrun (cache : Dict Bytes Str) (h : Holds (logicalPartitionKey digest) cache) :
      Holds (logicalPartitionKey digest)
        (calls.foldl (fun cache v => (cachedRoutingKey digest cache v).2) cache) := by
    induction calls generalizing cache with
    | nil => exact h
    | cons v calls ih => exact ih _ (cachedRoutingKey_spec h v).2
  exact hrun [] (holds_nil _)

/-- The spelling of a key does not show in its slot or its routing keys, whatever was
asked before. -/
theorem routing_spelling (rt : Runtime) (digest : Bytes → Str) (s : Str)
    (h : encodable s = true) :
    slotForKey rt (.str s) = slotForKey rt (.bytes (utf8 s)) ∧
      (∀ before after,
        (cachedRoutingKey digest (cacheAfter digest before) (.str s)).1 =
          (cachedRoutingKey digest (cacheAfter digest after) (.bytes (utf8 s))).1) ∧
      flowAutoIdRoutingKey (.str s) = flowAutoIdRoutingKey (.bytes (utf8 s)) := by
  refine ⟨slotForKey_spelling rt h, fun before after => ?_, flowAutoIdRoutingKey_spelling h⟩
  rw [(cachedRoutingKey_spec (cacheAfter_holds digest before) _).1,
    (cachedRoutingKey_spec (cacheAfter_holds digest after) _).1,
    partitionRoutingKey_spelling digest h]

/-- A key with a tag of one two-byte letter. -/
def sampleKey : Str := lit "X:f:\x7b\u00e9\x7d:route"

theorem sampleKey_spelling :
    encodable sampleKey = true ∧
      slotForKey Runtime.ascii (.str sampleKey) =
        slotForKey Runtime.ascii (.bytes (utf8 sampleKey)) := by
  have he : encodable sampleKey = true := by decide
  exact ⟨he, (routing_spelling Runtime.ascii (fun b => b.map bytePoint) sampleKey he).1⟩

end FerricStore.KeyRouting
