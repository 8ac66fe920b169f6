import Mathlib.Tactic

/-!
# Fixed-width big-endian integers

A byte string is a list of octets. The width of an integer field is explicit,
so encoding truncates and decoding never fails; the range in which the two are
inverse is a hypothesis of the round trips. Signed fields use two's complement.
-/

set_option autoImplicit false

namespace FerricStore

abbrev Bytes := List UInt8

namespace BigEndian

def encode : ℕ → ℕ → Bytes
  | 0, _ => []
  | w+1, n => encode w (n/256) ++ [UInt8.ofNat n]

def decode (bs : Bytes) : ℕ := bs.foldl (fun acc b => acc*256+b.toNat) 0

@[simp] theorem encode_length (w n : ℕ) : (encode w n).length = w := by
  induction w generalizing n with
  | zero => rfl
  | succ w ih => simp [encode, ih]

@[simp] theorem decode_nil : decode [] = 0 := rfl

theorem decode_snoc (bs : Bytes) (b : UInt8) :
    decode (bs++[b]) = decode bs*256+b.toNat := by
  simp [decode]

theorem decode_encode (w n : ℕ) (h : n < 256^w) : decode (encode w n) = n := by
  induction w generalizing n with
  | zero =>
    have hn : n = 0 := by simpa using h
    simp [encode, hn]
  | succ w ih =>
    have hq : n/256 < 256^w := by
      rw [pow_succ] at h
      omega
    rw [encode, decode_snoc, ih _ hq]
    simp only [UInt8.toNat_ofNat']
    omega

theorem decode_lt (bs : Bytes) : decode bs < 256^bs.length := by
  induction bs using List.reverseRecOn with
  | nil => simp
  | append_singleton bs b ih =>
    have hb := b.toNat_lt
    rw [decode_snoc, List.length_append, List.length_singleton, pow_succ]
    omega

theorem encode_decode (bs : Bytes) : encode bs.length (decode bs) = bs := by
  induction bs using List.reverseRecOn with
  | nil => rfl
  | append_singleton bs b ih =>
    have hb := b.toNat_lt
    have hq : (decode bs*256+b.toNat)/256 = decode bs := by omega
    have hr : UInt8.ofNat (decode bs*256+b.toNat) = b := by
      apply UInt8.toNat_inj.mp
      rw [UInt8.toNat_ofNat']
      omega
    rw [decode_snoc, List.length_append, List.length_singleton, encode, hq, hr, ih]

/-- Fields of one width are a prefix code: the field and what follows it are
both determined by the concatenation. -/
theorem encode_append_inj (w m n : ℕ) (hm : m < 256^w) (hn : n < 256^w) (xs ys : Bytes)
    (h : encode w m ++ xs = encode w n ++ ys) : m = n ∧ xs = ys := by
  obtain ⟨hl, hr⟩ := List.append_inj h (by simp)
  refine ⟨?_, hr⟩
  rw [← decode_encode w m hm, hl, decode_encode w n hn]

def encodeSigned (w : ℕ) (z : ℤ) : Bytes := encode w (z % 256^w).toNat

def decodeSigned (bs : Bytes) : ℤ :=
  if 2*decode bs < 256^bs.length then decode bs else decode bs-256^bs.length

@[simp] theorem encodeSigned_length (w : ℕ) (z : ℤ) : (encodeSigned w z).length = w := by
  simp [encodeSigned]

theorem decodeSigned_encodeSigned (w : ℕ) (z : ℤ)
    (hlo : -(256^w : ℤ) ≤ 2*z) (hhi : 2*z < 256^w) :
    decodeSigned (encodeSigned w z) = z := by
  have hp : (0 : ℤ) < 256^w := by positivity
  have hm := Int.emod_nonneg z (ne_of_gt hp)
  have hlt := Int.emod_lt_of_pos z hp
  have hn : (z % 256^w).toNat < 256^w := by
    zify
    rw [Int.toNat_of_nonneg hm]
    exact hlt
  have hd : (decode (encodeSigned w z) : ℤ) = z % 256^w := by
    rw [encodeSigned, decode_encode w _ hn, Int.toNat_of_nonneg hm]
  have hlen : (256^(encodeSigned w z).length : ℤ) = 256^w := by simp
  rcases lt_or_ge z 0 with hz | hz
  · have he : z % 256^w = z+256^w := by
      rw [← Int.add_emod_right]
      exact Int.emod_eq_of_lt (by linarith) (by linarith)
    have hc : ¬ 2*decode (encodeSigned w z) < 256^(encodeSigned w z).length := by
      zify
      rw [hlen, hd, he]
      linarith
    rw [decodeSigned, if_neg hc, hlen, hd, he]
    ring
  · have he : z % 256^w = z := Int.emod_eq_of_lt hz (by linarith)
    have hc : 2*decode (encodeSigned w z) < 256^(encodeSigned w z).length := by
      zify
      rw [hlen, hd, he]
      exact hhi
    rw [decodeSigned, if_pos hc, hd, he]

theorem decodeSigned_range (bs : Bytes) :
    -(256^bs.length : ℤ) ≤ 2*decodeSigned bs ∧ 2*decodeSigned bs < 256^bs.length := by
  have hlt : (decode bs : ℤ) < 256^bs.length := by exact_mod_cast decode_lt bs
  unfold decodeSigned
  split_ifs with h
  · have : (2*decode bs : ℤ) < 256^bs.length := by exact_mod_cast h
    constructor <;> linarith
  · have : (256^bs.length : ℤ) ≤ 2*decode bs := by exact_mod_cast not_lt.mp h
    constructor <;> linarith

theorem encodeSigned_decodeSigned (bs : Bytes) : encodeSigned bs.length (decodeSigned bs) = bs := by
  have hlt : (decode bs : ℤ) < 256^bs.length := by exact_mod_cast decode_lt bs
  have hmod : decodeSigned bs % 256^bs.length = decode bs := by
    unfold decodeSigned
    split_ifs
    · exact Int.emod_eq_of_lt (by positivity) hlt
    · rw [Int.sub_emod_right]
      exact Int.emod_eq_of_lt (by positivity) hlt
  rw [encodeSigned, hmod, Int.toNat_natCast, encode_decode]

end BigEndian
end FerricStore
