import FerricStore.OrderedKeyDecoding

/-!
# Storage keys of the LangGraph stores

What a record is about is spelled as bytes, each part after its length, and the key of the
record holds the digest of these bytes. Fields of a hash hold their texts in an alphabet
of letters, digits and two signs. Different identities have different spellings, so keys
differ where the digest does not collide.
-/

set_option autoImplicit false

namespace FerricStore.StorageKeys
open Text OrderedKeys

/-- The exceptions of the stores. -/
inductive StorageError where
  | key (error : KeyError)
  | overflow
  | invalidNamespace (message : String)
  | notImplemented (message : String)
  | unfinished
  deriving DecidableEq, Repr

def typeError (message : String) : StorageError := .key (.typeError message)

def valueError (message : String) : StorageError := .key (.valueError message)

section Fields

/-- The URL-safe alphabet. -/
def digit (n : ℕ) : CodePoint :=
  point (if n < 26 then 65+n else if n < 52 then 71+n else if n < 62 then n-4
    else if n = 62 then 45 else 95)

/-- `base64.urlsafe_b64encode(…).rstrip(b"=")`. -/
def base64 : Bytes → Str
  | a::b::c::rest =>
    digit (a.toNat/4)::digit (a.toNat%4*16+b.toNat/16)::digit (b.toNat%16*4+c.toNat/64)::
      digit (c.toNat%64)::base64 rest
  | [a, b] => [digit (a.toNat/4), digit (a.toNat%4*16+b.toNat/16), digit (b.toNat%16*4)]
  | [a] => [digit (a.toNat/4), digit (a.toNat%4*16)]
  | [] => []

theorem digit_inj {m n : ℕ} (hm : m < 64) (hn : n < 64) (h : digit m = digit n) : m = n := by
  have hval := congrArg Fin.val h
  unfold digit at hval
  rw [point_of_lt (by split_ifs <;> omega), point_of_lt (by split_ifs <;> omega)] at hval
  split_ifs at hval <;> omega

theorem byte_eq {a b : UInt8} (h : a.toNat = b.toNat) : a = b := UInt8.toNat_inj.mp h

theorem base64_inj : Function.Injective base64 := by
  intro xs ys h
  induction xs using base64.induct generalizing ys with
  | case1 a b c rest ih =>
    match ys with
    | a'::b'::c'::rest' =>
      simp only [base64, List.cons.injEq] at h
      obtain ⟨h1, h2, h3, h4, hrest⟩ := h
      have ha := a.toNat_lt
      have hb := b.toNat_lt
      have hc := c.toNat_lt
      have ha' := a'.toNat_lt
      have hb' := b'.toNat_lt
      have hc' := c'.toNat_lt
      have e1 := digit_inj (by omega) (by omega) h1
      have e2 := digit_inj (by omega) (by omega) h2
      have e3 := digit_inj (by omega) (by omega) h3
      have e4 := digit_inj (by omega) (by omega) h4
      rw [byte_eq (show a.toNat = a'.toNat by omega), byte_eq (show b.toNat = b'.toNat by omega),
        byte_eq (show c.toNat = c'.toNat by omega), ih hrest]
    | [a', b'] => simp [base64] at h
    | [a'] => simp [base64] at h
    | [] => simp [base64] at h
  | case2 a b =>
    match ys with
    | a'::b'::c'::rest' => simp [base64] at h
    | [a', b'] =>
      simp only [base64, List.cons.injEq, and_true] at h
      obtain ⟨h1, h2, h3⟩ := h
      have ha := a.toNat_lt
      have hb := b.toNat_lt
      have ha' := a'.toNat_lt
      have hb' := b'.toNat_lt
      have e1 := digit_inj (by omega) (by omega) h1
      have e2 := digit_inj (by omega) (by omega) h2
      have e3 := digit_inj (by omega) (by omega) h3
      rw [byte_eq (show a.toNat = a'.toNat by omega), byte_eq (show b.toNat = b'.toNat by omega)]
    | [a'] => simp [base64] at h
    | [] => simp [base64] at h
  | case3 a =>
    match ys with
    | a'::b'::c'::rest' => simp [base64] at h
    | [a', b'] => simp [base64] at h
    | [a'] =>
      simp only [base64, List.cons.injEq, and_true] at h
      obtain ⟨h1, h2⟩ := h
      have ha := a.toNat_lt
      have ha' := a'.toNat_lt
      have e1 := digit_inj (by omega) (by omega) h1
      have e2 := digit_inj (by omega) (by omega) h2
      rw [byte_eq (show a.toNat = a'.toNat by omega)]
    | [] => simp [base64] at h
  | case4 =>
    match ys with
    | a'::b'::c'::rest' => simp [base64] at h
    | [a', b'] => simp [base64] at h
    | [a'] => simp [base64] at h
    | [] => rfl

end Fields

section Identities

/-- `value.encode("utf-8")`. -/
def payload (value : Str) : Except StorageError Bytes :=
  if encodable value then .ok (utf8 value) else .error (.key .unicodeEncode)

/-- `_encode_component`. -/
def encodeComponent (value : Str) : Except StorageError Str := do
  let bytes ← payload value
  .ok (base64 bytes)

/-- `length.to_bytes(8, "big")`. -/
def lengthBytes (length : ℕ) : Except StorageError Bytes :=
  if length < 256^8 then .ok (BigEndian.encode 8 length) else .error .overflow

def measured (component : Str) : Except StorageError Bytes := do
  let bytes ← payload component
  let length ← lengthBytes bytes.length
  .ok (length++bytes)

/-- `_namespace_identity`. -/
def namespaceIdentity (namespace_ : List Str) : Except StorageError Bytes := do
  let parts ← namespace_.mapM measured
  .ok parts.flatten

/-- The bytes of an item in `item_lock_key`. -/
def itemIdentity (namespace_ : List Str) (key : Str) : Except StorageError Bytes := do
  let identity ← namespaceIdentity namespace_
  let key ← measured key
  .ok (identity++key)

/-- The bytes of a thread and a namespace in `thread_key`, whose lengths count characters. -/
def threadIdentity (threadId checkpointNs : Str) : Except StorageError Bytes := do
  let threadLength ← lengthBytes threadId.length
  let thread ← payload threadId
  let nsLength ← lengthBytes checkpointNs.length
  let ns ← payload checkpointNs
  .ok (threadLength++thread++nsLength++ns)

/-- Text that a store can spell. -/
def Storable (s : Str) : Prop := encodable s = true ∧ (utf8 s).length < 256^8

instance (s : Str) : Decidable (Storable s) := inferInstanceAs (Decidable (_ ∧ _))

def measuredCode (s : Str) : Bytes := BigEndian.encode 8 (utf8 s).length++utf8 s

theorem payload_eq {s : Str} (h : encodable s = true) : payload s = .ok (utf8 s) := by
  rw [payload, if_pos h]

theorem payload_ok {s : Str} {b : Bytes} (h : payload s = .ok b) :
    encodable s = true ∧ b = utf8 s := by
  unfold payload at h
  split_ifs at h with he
  exact ⟨he, (Except.ok.inj h).symm⟩

theorem lengthBytes_ok {n : ℕ} {b : Bytes} (h : lengthBytes n = .ok b) :
    n < 256^8 ∧ b = BigEndian.encode 8 n := by
  unfold lengthBytes at h
  split_ifs at h with hn
  exact ⟨hn, (Except.ok.inj h).symm⟩

theorem encodeComponent_eq {s : Str} (h : encodable s = true) :
    encodeComponent s = .ok (base64 (utf8 s)) := by
  rw [encodeComponent, payload_eq h]
  rfl

theorem measured_eq {s : Str} (h : Storable s) : measured s = .ok (measuredCode s) := by
  rw [measured, payload_eq h.1]
  change (do let length ← lengthBytes (utf8 s).length; Except.ok (length++utf8 s)) = _
  rw [lengthBytes, if_pos h.2]
  rfl

theorem measured_ok {s : Str} {b : Bytes} (h : measured s = .ok b) :
    Storable s ∧ b = measuredCode s := by
  obtain ⟨bytes, hbytes, h⟩ := except_bind_eq_ok h
  obtain ⟨length, hlength, h⟩ := except_bind_eq_ok h
  obtain ⟨hencodable, rfl⟩ := payload_ok hbytes
  obtain ⟨hbound, rfl⟩ := lengthBytes_ok hlength
  exact ⟨⟨hencodable, hbound⟩, (Except.ok.inj h).symm⟩

theorem mapM_measured {ns : List Str} (h : ∀ s ∈ ns, Storable s) :
    ns.mapM measured = .ok (ns.map measuredCode) := by
  induction ns with
  | nil => rfl
  | cons s ns ih =>
    rw [List.mapM_cons, measured_eq (h s List.mem_cons_self),
      ih fun t ht => h t (List.mem_cons_of_mem s ht)]
    rfl

theorem namespaceIdentity_eq {ns : List Str} (h : ∀ s ∈ ns, Storable s) :
    namespaceIdentity ns = .ok (ns.flatMap measuredCode) := by
  rw [namespaceIdentity, mapM_measured h]
  rfl

theorem mapM_measured_ok {ns : List Str} {parts : List Bytes}
    (h : ns.mapM measured = .ok parts) : ∀ s ∈ ns, Storable s := by
  induction ns generalizing parts with
  | nil => exact fun s hs => absurd hs List.not_mem_nil
  | cons t ns ih =>
    rw [List.mapM_cons] at h
    obtain ⟨part, hpart, h⟩ := except_bind_eq_ok h
    obtain ⟨rest, hrest, -⟩ := except_bind_eq_ok h
    intro s hs
    rcases List.mem_cons.mp hs with rfl | hs
    · exact (measured_ok hpart).1
    · exact ih hrest s hs

theorem namespaceIdentity_ok {ns : List Str} {b : Bytes} (h : namespaceIdentity ns = .ok b) :
    (∀ s ∈ ns, Storable s) ∧ b = ns.flatMap measuredCode := by
  obtain ⟨parts, hparts, hb⟩ := except_bind_eq_ok h
  have hstorable := mapM_measured_ok hparts
  rw [namespaceIdentity_eq hstorable] at h
  exact ⟨hstorable, (Except.ok.inj h).symm⟩

theorem utf8Point_append_inj {c d : CodePoint} {x y : Bytes}
    (h : utf8Point c++x = utf8Point d++y) : c = d ∧ x = y := by
  rcases lt_trichotomy c d with hlt | rfl | hlt
  · exact absurd h (ne_of_lt ((utf8Point_below hlt).append x y).lt)
  · exact ⟨rfl, List.append_cancel_left h⟩
  · exact absurd h.symm (ne_of_lt ((utf8Point_below hlt).append y x).lt)

/-- UTF-8 delimits itself: so many characters and what follows them are determined by
the bytes. -/
theorem utf8_append_inj {s t : Str} {x y : Bytes} (hlength : s.length = t.length)
    (h : utf8 s++x = utf8 t++y) : s = t ∧ x = y := by
  induction s generalizing t with
  | nil =>
    obtain rfl := List.length_eq_zero_iff.mp hlength.symm
    exact ⟨rfl, h⟩
  | cons c s ih =>
    cases t with
    | nil => cases hlength
    | cons d t =>
      simp only [utf8, List.flatMap_cons, List.append_assoc] at h
      obtain ⟨rfl, hrest⟩ := utf8Point_append_inj h
      obtain ⟨rfl, rfl⟩ := ih (Nat.succ.inj hlength) hrest
      exact ⟨rfl, rfl⟩

theorem utf8_inj {s t : Str} (h : utf8 s = utf8 t) : s = t := by
  induction s generalizing t with
  | nil =>
    have hempty := length_le_utf8_length t
    rw [← h] at hempty
    exact (List.length_eq_zero_iff.mp (Nat.le_zero.mp hempty)).symm
  | cons c s ih =>
    cases t with
    | nil =>
      have hempty := length_le_utf8_length (c::s)
      rw [h] at hempty
      exact absurd hempty (by simp [utf8])
    | cons d t =>
      simp only [utf8, List.flatMap_cons] at h
      obtain ⟨rfl, hrest⟩ := utf8Point_append_inj h
      rw [ih hrest]

theorem measuredCode_append_inj {s t : Str} {x y : Bytes} (hs : Storable s) (ht : Storable t)
    (h : measuredCode s++x = measuredCode t++y) : s = t ∧ x = y := by
  simp only [measuredCode, List.append_assoc] at h
  obtain ⟨hlength, hrest⟩ := BigEndian.encode_append_inj 8 _ _ hs.2 ht.2 _ _ h
  obtain ⟨hbytes, rfl⟩ := List.append_inj hrest hlength
  exact ⟨utf8_inj hbytes, rfl⟩

theorem identity_inj {ns ns' : List Str} (h : ∀ s ∈ ns, Storable s) (h' : ∀ s ∈ ns', Storable s)
    (heq : ns.flatMap measuredCode = ns'.flatMap measuredCode) : ns = ns' := by
  induction ns generalizing ns' with
  | nil =>
    cases ns' with
    | nil => rfl
    | cons t ns' => simp [measuredCode, BigEndian.encode] at heq
  | cons s ns ih =>
    cases ns' with
    | nil => simp [measuredCode, BigEndian.encode] at heq
    | cons t ns' =>
      simp only [List.flatMap_cons] at heq
      obtain ⟨rfl, hrest⟩ := measuredCode_append_inj (h s List.mem_cons_self)
        (h' t List.mem_cons_self) heq
      rw [ih (fun u hu => h u (List.mem_cons_of_mem _ hu))
        (fun u hu => h' u (List.mem_cons_of_mem _ hu)) hrest]

end Identities

section Keys

variable (sha256 : Bytes → Str) (keyPrefix : Str)

/-- `catalog_key` of the memory store. -/
def catalogKey : Str := keyPrefix++lit ":namespaces"

/-- `namespace_key`. -/
def namespaceKey (namespace_ : List Str) : Except StorageError Str := do
  let identity ← namespaceIdentity namespace_
  .ok (keyPrefix++lit ":\x7blgs:"++sha256 identity++lit "\x7d:namespace")

/-- `item_lock_key`. -/
def itemLockKey (namespace_ : List Str) (key : Str) : Except StorageError Str := do
  let identity ← itemIdentity namespace_ key
  .ok (keyPrefix++lit ":\x7blgsi:"++sha256 identity++lit "\x7d:mutation-lock")

/-- `prefix_catalog_key`. -/
def prefixCatalogKey (namespacePrefix : List Str) : Except StorageError Str :=
  if namespacePrefix = [] then .ok (catalogKey keyPrefix)
  else do
    let identity ← namespaceIdentity namespacePrefix
    .ok (keyPrefix++lit ":prefix:"++sha256 identity)

/-- `_item_field`. -/
def itemField (key : Str) : Except StorageError Str := do
  let component ← encodeComponent key
  .ok (lit "item:"++component)

end Keys

theorem scanCount_default_pos : 0 < 256 := by decide

end FerricStore.StorageKeys
