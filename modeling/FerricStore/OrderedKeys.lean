import FerricStore.OrderedCodes
import FerricStore.Utf8
import FerricStore.Value

/-!
# Index keys of the LangGraph stores

A sorted set orders its members by their bytes, so members are spelled to be ordered as
the text they stand for. A zero byte of the text is escaped, two zero bytes end a text,
and two zero bytes more end the labels of a namespace.
-/

set_option autoImplicit false

namespace FerricStore.OrderedKeys
open Text

/-- The exceptions of the key codecs, with their texts. -/
inductive KeyError where
  | unicodeEncode
  | typeError (message : String)
  | valueError (message : String)
  deriving DecidableEq, Repr

def escapeByte (b : UInt8) : Bytes := if b = 0 then [0, 255] else [b]

def escape (bs : Bytes) : Bytes := bs.flatMap escapeByte

def stop : Bytes := [0, 0]

/-- `value.encode("utf-8")`. -/
def encodeText (s : Str) : Except KeyError Bytes :=
  (encode s).elim (.error .unicodeEncode) .ok

/-- `_ordered_text`. -/
def orderedText (value : Str) : Except KeyError Bytes := do
  let bytes ← encodeText value
  .ok (escape bytes++stop)

/-- The loop of `_decode_ordered_text` over the bytes from the offset on; `what` is named
in the errors. -/
def unescape (what : String) : Bytes → Bytes → Except KeyError (Bytes × Bytes)
  | _, [] => .error (.valueError ("unterminated FerricStore LangGraph "++what))
  | decoded, b::rest =>
    if b ≠ 0 then unescape what (decoded++[b]) rest
    else match rest with
      | [] => .error (.valueError ("truncated FerricStore LangGraph "++what))
      | escaped::rest =>
        if escaped = 0 then .ok (decoded, rest)
        else if escaped = 255 then unescape what (decoded++[0]) rest
        else .error (.valueError ("invalid FerricStore LangGraph "++what++" escape"))

/-- `_decode_ordered_text`: the text, and the bytes after it. -/
def decodeOrderedText (what : String) (value : Bytes) : Except KeyError (Str × Bytes) := do
  let (decoded, rest) ← unescape what [] value
  match decode decoded with
  | some text => .ok (text, rest)
  | none => .error (.valueError ("invalid UTF-8 in FerricStore LangGraph "++what))

/-- `_catalog_member`. -/
def catalogMember (namespace_ : List Str) (key : Str) : Except KeyError Bytes := do
  let components ← namespace_.mapM orderedText
  let key ← orderedText key
  .ok (components.flatten++stop++key)

/-- `_raw_bytes`. -/
def rawBytes (name : String) : Value → Except KeyError Bytes
  | .bytes b => .ok b
  | .bytearray b => .ok b
  | .str s => encodeText s
  | _ => .error (.typeError ("FerricStore returned a non-binary "++name))

theorem unescape_shorter {what : String} {decoded bytes : Bytes} {r : Bytes × Bytes}
    (h : unescape what decoded bytes = .ok r) : r.2.length+2 ≤ bytes.length := by
  induction decoded, bytes using unescape.induct with
  | case1 decoded => cases h
  | case2 decoded b rest hb ih =>
    unfold unescape at h
    rw [if_pos hb] at h
    have hlength := ih h
    rw [List.length_cons]
    omega
  | case3 decoded b hb =>
    rw [unescape, if_neg hb] at h
    cases h
  | case4 decoded b hb rest =>
    rw [unescape, if_neg hb] at h
    cases h
    simp
  | case5 decoded b hb rest hne ih =>
    rw [unescape, if_neg hb] at h
    simp only [if_neg hne, if_true] at h
    have hlength := ih h
    simp only [List.length_cons]
    omega
  | case6 decoded b hb escaped rest hzero hfull =>
    rw [unescape, if_neg hb] at h
    simp only [if_neg hzero, if_neg hfull] at h
    cases h

theorem decodeOrderedText_shorter {what : String} {bytes : Bytes} {r : Str × Bytes}
    (h : decodeOrderedText what bytes = .ok r) : r.2.length < bytes.length := by
  obtain ⟨⟨decoded, rest⟩, hrest, h⟩ := except_bind_eq_ok h
  have hlength := unescape_shorter hrest
  simp only at h
  split at h
  · cases h
    simp only at hlength ⊢
    omega
  · cases h

/-- The loop of `_decode_catalog_member`: the labels, and the bytes after their end. -/
def decodeNamespace (bytes : Bytes) : Except KeyError (List Str × Bytes) :=
  if bytes.take 2 = stop then .ok ([], bytes.drop 2)
  else match _h : decodeOrderedText "catalog member" bytes with
    | .error e => .error e
    | .ok (component, rest) => do
      let (components, rest) ← decodeNamespace rest
      .ok (component::components, rest)
termination_by bytes.length
decreasing_by exact decodeOrderedText_shorter _h

/-- `_decode_catalog_member` of bytes. -/
def decodeCatalogMember (encoded : Bytes) : Except KeyError (List Str × Str) := do
  let (namespace_, rest) ← decodeNamespace encoded
  let (key, rest) ← decodeOrderedText "catalog member" rest
  if rest ≠ [] ∨ namespace_ = [] then
    .error (.valueError "invalid FerricStore LangGraph catalog member")
  else .ok (namespace_, key)

/-- `checkpoint_locator`. -/
def checkpointLocator (checkpointId threadKey : Str) : Except KeyError Bytes := do
  let first ← orderedText checkpointId
  let second ← encodeText threadKey
  .ok (first++second)

/-- `decode_checkpoint_locator` of bytes. -/
def decodeCheckpointLocator (encoded : Bytes) : Except KeyError (Str × Str) := do
  let (checkpointId, rest) ← decodeOrderedText "checkpoint locator" encoded
  match decode rest with
  | none => .error (.valueError "invalid UTF-8 in FerricStore checkpoint locator key")
  | some threadKey =>
    if threadKey = [] then
      .error (.valueError "FerricStore checkpoint locator has an empty thread key")
    else .ok (checkpointId, threadKey)

/-!
## Index keys are ordered as the text they spell

Code points are the symbols of a code that keeps the order, so texts are too, and texts
are the symbols of the code of a namespace. Decoding takes back what was spelled, and a
spelling that decodes is the one that its text has.
-/

open Text OrderedCodes

instance byteOrder : LinearOrder UInt8 where
  le_refl := UInt8.le_refl
  le_trans _ _ _ := UInt8.le_trans
  le_antisymm _ _ := UInt8.le_antisymm
  le_total := UInt8.le_total
  lt_iff_le_not_ge a b := by
    rw [UInt8.lt_iff_toNat_lt, UInt8.le_iff_toNat_le, UInt8.le_iff_toNat_le]
    omega
  toDecidableLE := inferInstance

section Symbols

theorem ofNat_lt {m n : ℕ} (hm : m < n) (hn : n < 256) : UInt8.ofNat m < UInt8.ofNat n := by
  rw [UInt8.lt_iff_toNat_lt, toNat_ofNat (by omega), toNat_ofNat hn]
  exact hm

/-- Two bytes of which one comes first, or is equal and the words after it are ordered. -/
theorem below_ofNat {m n : ℕ} (hm : m ≤ n) (hn : n < 256) {s t : Bytes}
    (h : m = n → Below s t) : Below (UInt8.ofNat m::s) (UInt8.ofNat n::t) := by
  rcases Nat.lt_or_eq_of_le hm with hlt | rfl
  · exact Below.of_head (ofNat_lt hlt hn)
  · exact (h rfl).cons

theorem below_last {m n : ℕ} (hm : m < n) (hn : n < 256) :
    Below [UInt8.ofNat m] [UInt8.ofNat n] := Below.of_head (ofNat_lt hm hn)

/-- UTF-8 keeps the order of code points. -/
theorem utf8Point_below {c d : CodePoint} (h : c < d) : Below (utf8Point c) (utf8Point d) := by
  have hlt : c.val < d.val := h
  have hd := d.isLt
  unfold utf8Point
  by_cases c1 : c.val ≤ 0x7F
  · rw [if_pos c1]
    split_ifs
    · exact below_last hlt (by omega)
    all_goals exact Below.of_head (ofNat_lt (by omega) (by omega))
  rw [if_neg c1, if_neg (show ¬d.val ≤ 0x7F by omega)]
  by_cases c2 : c.val ≤ 0x7FF
  · rw [if_pos c2]
    split_ifs
    · exact below_ofNat (by omega) (by omega) fun _ => below_last (by omega) (by omega)
    all_goals exact Below.of_head (ofNat_lt (by omega) (by omega))
  rw [if_neg c2, if_neg (show ¬d.val ≤ 0x7FF by omega)]
  by_cases c3 : c.val ≤ 0xFFFF
  · rw [if_pos c3]
    split_ifs
    · exact below_ofNat (by omega) (by omega) fun _ => below_ofNat (by omega) (by omega)
        fun _ => below_last (by omega) (by omega)
    · exact Below.of_head (ofNat_lt (by omega) (by omega))
  rw [if_neg c3, if_neg (show ¬d.val ≤ 0xFFFF by omega)]
  exact below_ofNat (by omega) (by omega) fun _ => below_ofNat (by omega) (by omega)
    fun _ => below_ofNat (by omega) (by omega) fun _ => below_last (by omega) (by omega)

theorem utf8Point_nonzero {c : CodePoint} (h : c ≠ 0) : ∀ b ∈ utf8Point c, b ≠ 0 := by
  have hc := c.isLt
  have hpos : 0 < c.val := Nat.pos_of_ne_zero fun h0 => h (Fin.ext h0)
  have hne : ∀ n, 0 < n → n < 256 → UInt8.ofNat n ≠ 0 := by
    intro n h0 hn he
    have hval := congrArg UInt8.toNat he
    rw [toNat_ofNat hn] at hval
    exact absurd hval (by simpa using Nat.pos_iff_ne_zero.mp h0)
  unfold utf8Point
  split_ifs <;> simp only [List.forall_mem_cons, List.not_mem_nil, false_implies, implies_true,
    and_true]
  · exact hne _ hpos (by omega)
  · exact ⟨hne _ (by omega) (by omega), hne _ (by omega) (by omega)⟩
  · exact ⟨hne _ (by omega) (by omega), hne _ (by omega) (by omega), hne _ (by omega) (by omega)⟩
  · exact ⟨hne _ (by omega) (by omega), hne _ (by omega) (by omega), hne _ (by omega) (by omega),
      hne _ (by omega) (by omega)⟩

theorem escape_nonzero {bs : Bytes} (h : ∀ b ∈ bs, b ≠ 0) : escape bs = bs := by
  induction bs with
  | nil => rfl
  | cons b bs ih =>
    rw [escape, List.flatMap_cons, escapeByte, if_neg (h b List.mem_cons_self)]
    exact congrArg (b::·) (ih fun x hx => h x (List.mem_cons_of_mem _ hx))

/-- The escaped bytes of a code point. -/
def pointCode (c : CodePoint) : Bytes := escape (utf8Point c)

theorem pointCode_zero : pointCode 0 = [0, 255] := rfl

theorem pointCode_nonzero {c : CodePoint} (h : c ≠ 0) :
    pointCode c = utf8Point c ∧ ∃ b t, utf8Point c = b::t ∧ 0 < b := by
  have hnonzero := utf8Point_nonzero h
  refine ⟨escape_nonzero hnonzero, ?_⟩
  cases hp : utf8Point c with
  | nil =>
    have hlength := utf8Point_length c
    rw [hp, List.length_nil] at hlength
    exact absurd (utf8Size_bounds c).1 (by omega)
  | cons b t =>
    have hb := hnonzero b (by rw [hp]; exact List.mem_cons_self)
    refine ⟨b, t, rfl, ?_⟩
    rw [UInt8.lt_iff_toNat_lt]
    exact Nat.pos_of_ne_zero fun h0 => hb (UInt8.toNat_inj.mp h0)

theorem pointCode_ordered : OrderedCode (fun _ => True) pointCode stop where
  symbol c d _ _ h := by
    have hd : d ≠ 0 := by
      rintro rfl
      exact absurd h (Nat.not_lt_zero _)
    obtain ⟨hcode, b, t, hpoint, hb⟩ := pointCode_nonzero hd
    by_cases hc : c = 0
    · rw [hc, pointCode_zero, hcode, hpoint]
      exact Below.of_head hb
    · rw [(pointCode_nonzero hc).1, hcode]
      exact utf8Point_below h
  stop c _ := by
    by_cases hc : c = 0
    · rw [hc, pointCode_zero]
      exact Below.cons (Below.of_head (by decide))
    · obtain ⟨hcode, b, t, hpoint, hb⟩ := pointCode_nonzero hc
      rw [hcode, hpoint]
      exact Below.of_head hb

/-- A text is the sequence of its code points. -/
def textCode (s : Str) : Bytes := sequence pointCode stop s

theorem textCode_eq (s : Str) : textCode s = escape (utf8 s)++stop := by
  rw [textCode, OrderedCodes.sequence, escape, utf8, List.flatMap_assoc]
  rfl

theorem orderedText_eq {s : Str} (h : encodable s = true) : orderedText s = .ok (textCode s) := by
  simp only [orderedText, encodeText, encode, h, if_true, Option.elim_some, bind, Except.bind,
    textCode_eq]

theorem orderedText_ok {s : Str} {b : Bytes} (h : orderedText s = .ok b) :
    encodable s = true ∧ b = textCode s := by
  cases he : encodable s with
  | true =>
    rw [orderedText_eq he] at h
    exact ⟨rfl, (Except.ok.inj h).symm⟩
  | false =>
    simp only [orderedText, encodeText, encode, he, Bool.false_eq_true, if_false] at h
    cases h

/-- Texts that are not empty are the symbols of a namespace. -/
theorem textCode_ordered : OrderedCode (fun s : Str => s ≠ []) textCode stop := by
  have hsequence := sequence_code pointCode_ordered
  exact ⟨fun a b ha hb => hsequence.symbol a b ⟨ha, fun _ _ => trivial⟩ ⟨hb, fun _ _ => trivial⟩,
    fun a ha => hsequence.stop a ⟨ha, fun _ _ => trivial⟩⟩

end Symbols

end FerricStore.OrderedKeys
