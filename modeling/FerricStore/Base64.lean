import FerricStore.Text

/-!
# Base64 with padding

Three bytes are four digits of the standard alphabet; the last group is padded with `=`.
The decoder accepts what the alphabet and the padding allow and nothing else.
-/

set_option autoImplicit false

namespace FerricStore.Base64

open Text

def digit (n : ℕ) : CodePoint :=
  point (if n < 26 then 65+n else if n < 52 then 71+n else if n < 62 then n-4
    else if n = 62 then 43 else 47)

def pad : CodePoint := point 61

def digitValue (c : CodePoint) : Option ℕ :=
  if 65 ≤ c.val ∧ c.val ≤ 90 then some (c.val-65)
  else if 97 ≤ c.val ∧ c.val ≤ 122 then some (c.val-71)
  else if 48 ≤ c.val ∧ c.val ≤ 57 then some (c.val+4)
  else if c.val = 43 then some 62
  else if c.val = 47 then some 63
  else none

/-- `base64.b64encode` -/
def b64encode : Bytes → Str
  | a::b::c::rest =>
    digit (a.toNat/4)::digit (a.toNat%4*16+b.toNat/16)::digit (b.toNat%16*4+c.toNat/64)::
      digit (c.toNat%64)::b64encode rest
  | [a, b] => [digit (a.toNat/4), digit (a.toNat%4*16+b.toNat/16), digit (b.toNat%16*4), pad]
  | [a] => [digit (a.toNat/4), digit (a.toNat%4*16), pad, pad]
  | [] => []

/-- `base64.b64decode(…, validate=True)` -/
def b64decode : Str → Option Bytes
  | [] => some []
  | [w, x, y, z] =>
    match digitValue w, digitValue x, digitValue y, digitValue z with
    | some w, some x, some y, some z =>
      some [UInt8.ofNat (w*4+x/16), UInt8.ofNat (x%16*16+y/4), UInt8.ofNat (y%4*64+z)]
    | some w, some x, some y, none =>
      if z = pad then some [UInt8.ofNat (w*4+x/16), UInt8.ofNat (x%16*16+y/4)] else none
    | some w, some x, none, none =>
      if y = pad ∧ z = pad then some [UInt8.ofNat (w*4+x/16)] else none
    | _, _, _, _ => none
  | w::x::y::z::rest =>
    match digitValue w, digitValue x, digitValue y, digitValue z with
    | some w, some x, some y, some z =>
      (b64decode rest).map fun bytes =>
        UInt8.ofNat (w*4+x/16)::UInt8.ofNat (x%16*16+y/4)::UInt8.ofNat (y%4*64+z)::bytes
    | _, _, _, _ => none
  | _ => none

theorem digitValue_digit {n : ℕ} (h : n < 64) : digitValue (digit n) = some n := by
  revert n
  decide

theorem digitValue_pad : digitValue pad = none := by decide

theorem ofNat_eq {n : ℕ} {b : UInt8} (h : n = b.toNat) : UInt8.ofNat n = b := by
  rw [h, UInt8.ofNat_toNat]

theorem b64encode_length_cons (b : UInt8) (bytes : Bytes) :
    ∃ w x y z rest, b64encode (b::bytes) = w::x::y::z::rest := by
  match bytes with
  | [] => exact ⟨_, _, _, _, _, rfl⟩
  | [_] => exact ⟨_, _, _, _, _, rfl⟩
  | _::_::_ => exact ⟨_, _, _, _, _, rfl⟩

theorem b64decode_b64encode (bytes : Bytes) : b64decode (b64encode bytes) = some bytes := by
  induction bytes using b64encode.induct with
  | case1 a b c rest ih =>
    have ha := a.toNat_lt
    have hb := b.toNat_lt
    have hc := c.toNat_lt
    have hw := digitValue_digit (n := a.toNat/4) (by omega)
    have hx := digitValue_digit (n := a.toNat%4*16+b.toNat/16) (by omega)
    have hy := digitValue_digit (n := b.toNat%16*4+c.toNat/64) (by omega)
    have hz := digitValue_digit (n := c.toNat%64) (by omega)
    have h0 : UInt8.ofNat (a.toNat/4*4+(a.toNat%4*16+b.toNat/16)/16) = a := ofNat_eq (by omega)
    have h1 : UInt8.ofNat ((a.toNat%4*16+b.toNat/16)%16*16+(b.toNat%16*4+c.toNat/64)/4) = b :=
      ofNat_eq (by omega)
    have h2 : UInt8.ofNat ((b.toNat%16*4+c.toNat/64)%4*64+c.toNat%64) = c := ofNat_eq (by omega)
    rw [b64encode]
    cases rest with
    | nil => simp only [b64encode, b64decode, hw, hx, hy, hz, h0, h1, h2]
    | cons d rest =>
      obtain ⟨w, x, y, z, tail, heq⟩ := b64encode_length_cons d rest
      rw [heq] at ih ⊢
      simp only [b64decode, hw, hx, hy, hz, h0, h1, h2, ih, Option.map_some]
  | case2 a b =>
    have ha := a.toNat_lt
    have hb := b.toNat_lt
    have hw := digitValue_digit (n := a.toNat/4) (by omega)
    have hx := digitValue_digit (n := a.toNat%4*16+b.toNat/16) (by omega)
    have hy := digitValue_digit (n := b.toNat%16*4) (by omega)
    have h0 : UInt8.ofNat (a.toNat/4*4+(a.toNat%4*16+b.toNat/16)/16) = a := ofNat_eq (by omega)
    have h1 : UInt8.ofNat ((a.toNat%4*16+b.toNat/16)%16*16+b.toNat%16*4/4) = b :=
      ofNat_eq (by omega)
    simp only [b64encode, b64decode, hw, hx, hy, digitValue_pad, h0, h1, if_true]
  | case3 a =>
    have ha := a.toNat_lt
    have hw := digitValue_digit (n := a.toNat/4) (by omega)
    have hx := digitValue_digit (n := a.toNat%4*16) (by omega)
    have h0 : UInt8.ofNat (a.toNat/4*4+a.toNat%4*16/16) = a := ofNat_eq (by omega)
    simp only [b64encode, b64decode, hw, hx, digitValue_pad, h0, and_self, if_true]
  | case4 => rfl

end FerricStore.Base64
