import FerricStore.OrderedKeys

/-!
# Index keys decode to what they spell

Each decoder takes back the spelling of its encoder whatever follows it, and accepts
nothing else, so the bytes that it accepts are the spelling of its result.
-/

set_option autoImplicit false

namespace FerricStore.OrderedKeys
open Text OrderedCodes

section Texts

variable (what : String)

theorem escape_cons (b : UInt8) (bs : Bytes) : escape (b::bs) = escapeByte b++escape bs := rfl

theorem unescape_escape (decoded bs rest : Bytes) :
    unescape what decoded (escape bs++stop++rest) = .ok (decoded++bs, rest) := by
  induction bs generalizing decoded with
  | nil =>
    show unescape what decoded (0::0::rest) = _
    simp [unescape]
  | cons b bs ih =>
    have hrest := ih (decoded++[b])
    rw [List.append_assoc, List.append_assoc] at hrest
    rw [escape_cons, escapeByte]
    by_cases hb : b = 0
    · subst hb
      show unescape what decoded (0::255::(escape bs++stop++rest)) = _
      simpa [unescape] using hrest
    · rw [if_neg hb]
      show unescape what decoded (b::(escape bs++stop++rest)) = _
      unfold unescape
      rw [if_pos hb]
      simpa using hrest

theorem unescape_sound {decoded bytes : Bytes} {r : Bytes × Bytes}
    (h : unescape what decoded bytes = .ok r) :
    ∃ bs, r.1 = decoded++bs ∧ bytes = escape bs++stop++r.2 := by
  induction decoded, bytes using unescape.induct with
  | case1 decoded => cases h
  | case2 decoded b rest hb ih =>
    unfold unescape at h
    rw [if_pos hb] at h
    obtain ⟨bs, hresult, hbytes⟩ := ih h
    refine ⟨b::bs, by rw [hresult, List.append_assoc]; rfl, ?_⟩
    rw [escape_cons, escapeByte, if_neg hb, hbytes]
    rfl
  | case3 decoded b hb =>
    rw [unescape, if_neg hb] at h
    cases h
  | case4 decoded b hb rest =>
    rw [unescape, if_neg hb] at h
    cases h
    refine ⟨[], by simp, ?_⟩
    rw [not_not.mp hb]
    rfl
  | case5 decoded b hb rest hne ih =>
    rw [unescape, if_neg hb] at h
    simp only [if_neg hne, if_true] at h
    obtain ⟨bs, hresult, hbytes⟩ := ih h
    refine ⟨0::bs, by rw [hresult, List.append_assoc]; rfl, ?_⟩
    rw [escape_cons, escapeByte, if_pos rfl, hbytes, not_not.mp hb]
    rfl
  | case6 decoded b hb escaped rest hzero hfull =>
    rw [unescape, if_neg hb] at h
    simp only [if_neg hzero, if_neg hfull] at h
    cases h

theorem decodeOrderedText_textCode {s : Str} (h : encodable s = true) (rest : Bytes) :
    decodeOrderedText what (textCode s++rest) = .ok (s, rest) := by
  have hbytes := unescape_escape what [] (utf8 s) rest
  rw [decodeOrderedText, textCode_eq, hbytes]
  simp [bind, Except.bind, decode_utf8 h]

theorem decodeOrderedText_sound {bytes : Bytes} {r : Str × Bytes}
    (h : decodeOrderedText what bytes = .ok r) :
    encodable r.1 = true ∧ bytes = textCode r.1++r.2 := by
  obtain ⟨⟨decoded, rest⟩, hrest, h⟩ := except_bind_eq_ok h
  obtain ⟨bs, hdecoded, hbytes⟩ := unescape_sound what hrest
  simp only at h
  cases htext : decode decoded with
  | none =>
    rw [htext] at h
    cases h
  | some text =>
    rw [htext] at h
    cases h
    obtain ⟨hencodable, hutf8⟩ := decode_sound htext
    refine ⟨hencodable, ?_⟩
    simp only [List.nil_append] at hdecoded hbytes ⊢
    rw [hbytes, textCode_eq, hutf8, hdecoded]

end Texts

section Namespaces

/-- The labels that a namespace can have. -/
def Label (s : Str) : Prop := s ≠ [] ∧ encodable s = true

def namespaceCode (namespace_ : List Str) : Bytes := OrderedCodes.sequence textCode stop namespace_

theorem namespaceCode_cons (s : Str) (namespace_ : List Str) :
    namespaceCode (s::namespace_) = textCode s++namespaceCode namespace_ := by
  simp [namespaceCode, OrderedCodes.sequence]

theorem take_textCode {s : Str} (h : s ≠ []) (rest : Bytes) :
    (textCode s++rest).take 2 ≠ stop := by
  intro hstop
  have hbelow := ((textCode_ordered.stop s h).append ((textCode s++rest).drop 2) rest).lt
  rw [← hstop, List.take_append_drop] at hbelow
  exact lt_irrefl _ hbelow

theorem decodeNamespace_eq {bytes : Bytes} (h : bytes.take 2 ≠ stop) :
    decodeNamespace bytes = (do
      let (component, rest) ← decodeOrderedText "catalog member" bytes
      let (components, rest) ← decodeNamespace rest
      .ok (component::components, rest)) := by
  rw [decodeNamespace, if_neg h]
  split <;> simp [*, bind, Except.bind]

theorem decodeNamespace_code {namespace_ : List Str} (h : ∀ s ∈ namespace_, Label s)
    (rest : Bytes) : decodeNamespace (namespaceCode namespace_++rest) = .ok (namespace_, rest) := by
  induction namespace_ with
  | nil =>
    rw [decodeNamespace]
    exact if_pos rfl
  | cons s namespace_ ih =>
    have hlabel := h s List.mem_cons_self
    have hrest := ih fun x hx => h x (List.mem_cons_of_mem _ hx)
    have htext := decodeOrderedText_textCode "catalog member" hlabel.2
      (namespaceCode namespace_++rest)
    rw [namespaceCode_cons, List.append_assoc, decodeNamespace_eq (take_textCode hlabel.1 _),
      htext]
    simp only [hrest, bind, Except.bind]

theorem decodeNamespace_sound {bytes : Bytes} {r : List Str × Bytes}
    (h : decodeNamespace bytes = .ok r) :
    (∀ s ∈ r.1, Label s) ∧ bytes = namespaceCode r.1++r.2 := by
  induction hn : bytes.length using Nat.strong_induction_on generalizing bytes r with
  | _ n ih =>
    by_cases hstop : bytes.take 2 = stop
    · rw [decodeNamespace, if_pos hstop] at h
      cases h
      refine ⟨by simp, ?_⟩
      calc bytes = bytes.take 2++bytes.drop 2 := (List.take_append_drop 2 bytes).symm
        _ = stop++bytes.drop 2 := by rw [hstop]
        _ = namespaceCode []++bytes.drop 2 := rfl
    · rw [decodeNamespace_eq hstop] at h
      obtain ⟨⟨component, rest⟩, htext, h⟩ := except_bind_eq_ok h
      obtain ⟨labels, hlabels, h⟩ := except_bind_eq_ok h
      obtain ⟨hencodable, hbytes⟩ := decodeOrderedText_sound _ htext
      have hshorter := decodeOrderedText_shorter htext
      cases h
      obtain ⟨hrest, hcode⟩ := ih _ (hn ▸ hshorter) hlabels rfl
      simp only at hencodable hbytes hcode
      have hne : component ≠ [] := by
        intro hnil
        rw [hbytes, hnil] at hstop
        exact hstop rfl
      refine ⟨List.forall_mem_cons.mpr ⟨⟨hne, hencodable⟩, hrest⟩, ?_⟩
      rw [hbytes, hcode, namespaceCode_cons, List.append_assoc]

theorem mapM_orderedText {namespace_ : List Str} (h : ∀ s ∈ namespace_, encodable s = true) :
    namespace_.mapM orderedText = .ok (namespace_.map textCode) := by
  induction namespace_ with
  | nil => rfl
  | cons s namespace_ ih =>
    rw [List.mapM_cons, orderedText_eq (h s List.mem_cons_self),
      ih fun x hx => h x (List.mem_cons_of_mem _ hx)]
    rfl

theorem catalogMember_eq {namespace_ : List Str} {key : Str}
    (h : ∀ s ∈ namespace_, encodable s = true) (hkey : encodable key = true) :
    catalogMember namespace_ key = .ok (namespaceCode namespace_++textCode key) := by
  rw [catalogMember, mapM_orderedText h, orderedText_eq hkey]
  simp [bind, Except.bind, namespaceCode, OrderedCodes.sequence, List.flatMap_def]

/-- The members are ordered as the pairs of namespace and key. -/
theorem member_lt {ns ns' : List Str} {key key' : Str} (h : ∀ s ∈ ns, Label s)
    (h' : ∀ s ∈ ns', Label s) :
    namespaceCode ns++textCode key < namespaceCode ns'++textCode key' ↔
      ns < ns' ∨ ns = ns' ∧ key < key' := by
  have hkeys : textCode key < textCode key' ↔ key < key' := by
    have hlt : textCode key++[] < textCode key'++[] ↔ key < key' ∨ key = key' ∧ ([] : Bytes) < [] :=
      sequence_append_lt pointCode_ordered (fun _ _ => trivial) fun _ _ => trivial
    simpa using hlt
  rw [← hkeys]
  exact sequence_append_lt textCode_ordered (fun s hs => (h s hs).1) fun s hs => (h' s hs).1

theorem decodeCatalogMember_code {ns : List Str} {key : Str} (hne : ns ≠ [])
    (h : ∀ s ∈ ns, Label s) (hkey : encodable key = true) :
    decodeCatalogMember (namespaceCode ns++textCode key) = .ok (ns, key) := by
  have htext := decodeOrderedText_textCode "catalog member" hkey []
  rw [List.append_nil] at htext
  simp [decodeCatalogMember, decodeNamespace_code h, htext, bind, Except.bind, hne]

theorem decodeCatalogMember_sound {bytes : Bytes} {r : List Str × Str}
    (h : decodeCatalogMember bytes = .ok r) :
    r.1 ≠ [] ∧ (∀ s ∈ r.1, Label s) ∧ encodable r.2 = true ∧
      bytes = namespaceCode r.1++textCode r.2 := by
  obtain ⟨⟨ns, rest⟩, hns, h⟩ := except_bind_eq_ok h
  obtain ⟨⟨key, last⟩, hkey, h⟩ := except_bind_eq_ok h
  obtain ⟨hlabels, hbytes⟩ := decodeNamespace_sound hns
  obtain ⟨hencodable, hrest⟩ := decodeOrderedText_sound _ hkey
  simp only at h hlabels hbytes hrest hencodable
  by_cases hbad : last ≠ [] ∨ ns = []
  · rw [if_pos hbad] at h
    cases h
  · rw [if_neg hbad] at h
    cases h
    obtain ⟨hlast, hne⟩ := not_or.mp hbad
    refine ⟨hne, hlabels, hencodable, ?_⟩
    rw [hbytes, hrest, not_not.mp hlast, List.append_nil]

end Namespaces

section Locators

theorem checkpointLocator_eq {id key : Str} (hid : encodable id = true)
    (hkey : encodable key = true) : checkpointLocator id key = .ok (textCode id++utf8 key) := by
  simp [checkpointLocator, orderedText_eq hid, encodeText, encode, hkey, bind, Except.bind]

theorem decodeCheckpointLocator_code {id key : Str} (hid : encodable id = true)
    (hkey : encodable key = true) (hne : key ≠ []) :
    decodeCheckpointLocator (textCode id++utf8 key) = .ok (id, key) := by
  simp [decodeCheckpointLocator, decodeOrderedText_textCode _ hid, decode_utf8 hkey, bind,
    Except.bind, hne]

theorem decodeCheckpointLocator_sound {bytes : Bytes} {r : Str × Str}
    (h : decodeCheckpointLocator bytes = .ok r) :
    encodable r.1 = true ∧ encodable r.2 = true ∧ r.2 ≠ [] ∧
      bytes = textCode r.1++utf8 r.2 := by
  obtain ⟨⟨id, rest⟩, hid, h⟩ := except_bind_eq_ok h
  obtain ⟨hencodable, hbytes⟩ := decodeOrderedText_sound _ hid
  simp only at h hencodable hbytes
  cases hkey : decode rest with
  | none =>
    rw [hkey] at h
    cases h
  | some key =>
    simp only [hkey] at h
    obtain ⟨hkeyEncodable, hutf8⟩ := decode_sound hkey
    by_cases hnil : key = []
    · rw [if_pos hnil] at h
      cases h
    · rw [if_neg hnil] at h
      cases h
      exact ⟨hencodable, hkeyEncodable, hnil, by rw [hbytes, hutf8]⟩

theorem locator_lt {id id' : Str} {s t : Bytes} :
    textCode id++s < textCode id'++t ↔ id < id' ∨ id = id' ∧ s < t :=
  sequence_append_lt pointCode_ordered (fun _ _ => trivial) fun _ _ => trivial

end Locators

section Errors

theorem except_bind_eq_error {ε α β : Type} {x : Except ε α} {f : α → Except ε β} {e : ε}
    (h : (x >>= f) = .error e) : x = .error e ∨ ∃ a, x = .ok a ∧ f a = .error e := by
  cases x with
  | error e' =>
    cases h
    exact .inl rfl
  | ok a => exact .inr ⟨a, rfl, h⟩

theorem unescape_error {what : String} {decoded bytes : Bytes} {e : KeyError}
    (h : unescape what decoded bytes = .error e) : ∃ message, e = .valueError message := by
  induction decoded, bytes using unescape.induct with
  | case1 decoded => exact ⟨_, (Except.error.inj h).symm⟩
  | case2 decoded b rest hb ih =>
    unfold unescape at h
    rw [if_pos hb] at h
    exact ih h
  | case3 decoded b hb =>
    rw [unescape, if_neg hb] at h
    exact ⟨_, (Except.error.inj h).symm⟩
  | case4 decoded b hb rest =>
    rw [unescape, if_neg hb] at h
    cases h
  | case5 decoded b hb rest hne ih =>
    rw [unescape, if_neg hb] at h
    simp only [if_neg hne, if_true] at h
    exact ih h
  | case6 decoded b hb escaped rest hzero hfull =>
    rw [unescape, if_neg hb] at h
    simp only [if_neg hzero, if_neg hfull] at h
    exact ⟨_, (Except.error.inj h).symm⟩

theorem decodeOrderedText_error {what : String} {bytes : Bytes} {e : KeyError}
    (h : decodeOrderedText what bytes = .error e) : ∃ message, e = .valueError message := by
  rcases except_bind_eq_error h with hbytes | ⟨⟨decoded, rest⟩, -, h⟩
  · exact unescape_error hbytes
  · simp only at h
    cases htext : decode decoded with
    | none =>
      rw [htext] at h
      exact ⟨_, (Except.error.inj h).symm⟩
    | some text =>
      rw [htext] at h
      cases h

theorem decodeNamespace_error {bytes : Bytes} {e : KeyError}
    (h : decodeNamespace bytes = .error e) : ∃ message, e = .valueError message := by
  induction hn : bytes.length using Nat.strong_induction_on generalizing bytes with
  | _ n ih =>
    by_cases hstop : bytes.take 2 = stop
    · rw [decodeNamespace, if_pos hstop] at h
      cases h
    · rw [decodeNamespace_eq hstop] at h
      rcases except_bind_eq_error h with htext | ⟨⟨component, rest⟩, htext, h⟩
      · exact decodeOrderedText_error htext
      · rcases except_bind_eq_error h with hrest | ⟨labels, -, h⟩
        · exact ih _ (hn ▸ decodeOrderedText_shorter htext) hrest rfl
        · cases h

/-- The decoders end with a result or a `ValueError`. -/
theorem decodeCatalogMember_error {bytes : Bytes} {e : KeyError}
    (h : decodeCatalogMember bytes = .error e) : ∃ message, e = .valueError message := by
  rcases except_bind_eq_error h with hns | ⟨⟨ns, rest⟩, -, h⟩
  · exact decodeNamespace_error hns
  · rcases except_bind_eq_error h with hkey | ⟨⟨key, last⟩, -, h⟩
    · exact decodeOrderedText_error hkey
    · simp only at h
      split_ifs at h
      exact ⟨_, (Except.error.inj h).symm⟩

theorem decodeCheckpointLocator_error {bytes : Bytes} {e : KeyError}
    (h : decodeCheckpointLocator bytes = .error e) : ∃ message, e = .valueError message := by
  rcases except_bind_eq_error h with hid | ⟨⟨id, rest⟩, -, h⟩
  · exact decodeOrderedText_error hid
  · simp only at h
    cases hkey : decode rest with
    | none =>
      rw [hkey] at h
      exact ⟨_, (Except.error.inj h).symm⟩
    | some key =>
      simp only [hkey] at h
      split_ifs at h
      exact ⟨_, (Except.error.inj h).symm⟩

end Errors

section IndexKeys

/-- A namespace and a key, as the stores accept them. -/
def ItemPath (p : List Str × Str) : Prop :=
  p.1 ≠ [] ∧ (∀ s ∈ p.1, Label s) ∧ encodable p.2 = true

/-- Catalog members decode to the namespace and the key that they were made of and are
ordered as these, so the members of one namespace lie together; locators are ordered by
their checkpoint first; and bytes that a decoder accepts are the spelling of its result. -/
theorem index_keys_keep_order :
    (∀ p, ItemPath p → ∃ b, catalogMember p.1 p.2 = .ok b ∧ decodeCatalogMember b = .ok p) ∧
    (∀ p q b c, ItemPath p → ItemPath q → catalogMember p.1 p.2 = .ok b →
      catalogMember q.1 q.2 = .ok c → (b < c ↔ p.1 < q.1 ∨ p.1 = q.1 ∧ p.2 < q.2)) ∧
    (∀ p q r b c d, ItemPath p → ItemPath q → ItemPath r → catalogMember p.1 p.2 = .ok b →
      catalogMember q.1 q.2 = .ok c → catalogMember r.1 r.2 = .ok d →
      b < c → c < d → p.1 = r.1 → q.1 = p.1) ∧
    (∀ id key, encodable id = true → encodable key = true → key ≠ [] →
      ∃ b, checkpointLocator id key = .ok b ∧ decodeCheckpointLocator b = .ok (id, key)) ∧
    (∀ id id' key key' b c, checkpointLocator id key = .ok b →
      checkpointLocator id' key' = .ok c → id < id' → b < c) ∧
    (∀ b, (∃ p, decodeCatalogMember b = .ok p ∧ catalogMember p.1 p.2 = .ok b) ∨
      ∃ message, decodeCatalogMember b = .error (.valueError message)) ∧
    (∀ b, (∃ p, decodeCheckpointLocator b = .ok p ∧ checkpointLocator p.1 p.2 = .ok b) ∨
      ∃ message, decodeCheckpointLocator b = .error (.valueError message)) := by
  have hcode : ∀ p, ItemPath p →
      catalogMember p.1 p.2 = .ok (namespaceCode p.1++textCode p.2) :=
    fun p hp => catalogMember_eq (fun s hs => (hp.2.1 s hs).2) hp.2.2
  have horder : ∀ p q b c, ItemPath p → ItemPath q → catalogMember p.1 p.2 = .ok b →
      catalogMember q.1 q.2 = .ok c → (b < c ↔ p.1 < q.1 ∨ p.1 = q.1 ∧ p.2 < q.2) := by
    intro p q b c hp hq hb hc
    rw [hcode p hp] at hb
    rw [hcode q hq] at hc
    cases hb
    cases hc
    exact member_lt hp.2.1 hq.2.1
  refine ⟨?_, horder, ?_, ?_, ?_, ?_, ?_⟩
  · intro p hp
    exact ⟨_, hcode p hp, decodeCatalogMember_code hp.1 hp.2.1 hp.2.2⟩
  · intro p q r b c d hp hq hr hb hc hd hbc hcd hpr
    rcases (horder p q b c hp hq hb hc).mp hbc with hpq | ⟨hpq, -⟩
    · rcases (horder q r c d hq hr hc hd).mp hcd with hqr | ⟨hqr, -⟩
      · exact absurd (hpr ▸ hqr) (lt_asymm hpq)
      · exact hqr.trans hpr.symm
    · exact hpq.symm
  · intro id key hid hkey hne
    exact ⟨_, checkpointLocator_eq hid hkey, decodeCheckpointLocator_code hid hkey hne⟩
  · intro id id' key key' b c hb hc hlt
    obtain ⟨first, hfirst, hb⟩ := except_bind_eq_ok hb
    obtain ⟨second, -, hb⟩ := except_bind_eq_ok hb
    obtain ⟨first', hfirst', hc⟩ := except_bind_eq_ok hc
    obtain ⟨second', -, hc⟩ := except_bind_eq_ok hc
    cases hb
    cases hc
    rw [(orderedText_ok hfirst).2, (orderedText_ok hfirst').2]
    exact locator_lt.mpr (.inl hlt)
  · intro b
    cases h : decodeCatalogMember b with
    | error e =>
      obtain ⟨message, rfl⟩ := decodeCatalogMember_error h
      exact .inr ⟨message, rfl⟩
    | ok p =>
      obtain ⟨hne, hlabels, hkey, hbytes⟩ := decodeCatalogMember_sound h
      exact .inl ⟨p, rfl, hbytes ▸ hcode p ⟨hne, hlabels, hkey⟩⟩
  · intro b
    cases h : decodeCheckpointLocator b with
    | error e =>
      obtain ⟨message, rfl⟩ := decodeCheckpointLocator_error h
      exact .inr ⟨message, rfl⟩
    | ok p =>
      obtain ⟨hid, hkey, -, hbytes⟩ := decodeCheckpointLocator_sound h
      exact .inl ⟨p, rfl, hbytes ▸ checkpointLocator_eq hid hkey⟩

theorem index_keys_keep_order_nul :
    ∃ b, catalogMember [[97, 0], [0]] [] = .ok b ∧
      decodeCatalogMember b = .ok ([[97, 0], [0]], []) := by
  refine index_keys_keep_order.1 ([[97, 0], [0]], []) ⟨by simp, ?_, rfl⟩
  intro s hs
  simp only [List.mem_cons, List.not_mem_nil, or_false] at hs
  rcases hs with rfl | rfl
  · exact ⟨by simp, rfl⟩
  · exact ⟨by simp, rfl⟩

end IndexKeys

end FerricStore.OrderedKeys
